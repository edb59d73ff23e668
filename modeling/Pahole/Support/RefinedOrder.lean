import Pahole.Support.SearchTree

/-!
# Insertion with comparisons that refine an order

A comparison may tell values apart that are equal for an order, and go by the order for all others.
The values stay sorted by the order.  When one value is the only one in the tree that is equal to a
new one, the two are compared, whatever the shape of the tree.
-/

namespace SearchTree

variable {α : Type*} {order : α → α → Ordering} {x a : α} {t t' : SearchTree α}

/-- `compare` returns what `order` does where the values are not equal in `order`. -/
def Refines (order : α → α → Ordering) (compare : α → α → Option Ordering) : Prop :=
  ∀ v x, order v x ≠ .eq → compare v x = some (order v x)

/-- The values that are equal to a value. -/
def equals (order : α → α → Ordering) (a : α) (xs : List α) : List α :=
  xs.filter fun v => order v a = .eq

section Link

variable {compare : α → Option Ordering} {path before after : List α}

/-- A value is left out only if some value of the tree compares as equal. -/
theorem link_none (h : t.link compare x = some (path, none)) :
    ∃ v ∈ t.inorder, compare v = some .eq := by
  induction t generalizing path with
  | leaf => cases h
  | node red left value right ihl ihr =>
      rw [link] at h
      cases hvalue : compare value with
      | none =>
          rw [hvalue] at h
          cases h
      | some o =>
          rw [hvalue] at h
          cases o with
          | eq => exact ⟨value, by simp [inorder], hvalue⟩
          | gt =>
              obtain ⟨⟨path', result⟩, hside, heq⟩ := Option.map_eq_some_iff.mp h
              obtain ⟨-, hnone⟩ := Prod.mk.inj heq
              obtain rfl := Option.map_eq_none_iff.mp hnone
              obtain ⟨v, hv, hcompare⟩ := ihl hside
              exact ⟨v, by simp [inorder, hv], hcompare⟩
          | lt =>
              obtain ⟨⟨path', result⟩, hside, heq⟩ := Option.map_eq_some_iff.mp h
              obtain ⟨-, hnone⟩ := Prod.mk.inj heq
              obtain rfl := Option.map_eq_none_iff.mp hnone
              obtain ⟨v, hv, hcompare⟩ := ihr hside
              exact ⟨v, by simp [inorder, hv], hcompare⟩

/-- The values that are compared are in the tree. -/
theorem link_path_mem {result : Option (SearchTree α)}
    (h : t.link compare x = some (path, result)) : ∀ v ∈ path, v ∈ t.inorder := by
  induction t generalizing path result with
  | leaf =>
      obtain ⟨rfl, -⟩ := Prod.mk.inj (Option.some.inj h)
      simp
  | node red left value right ihl ihr =>
      rw [link] at h
      rw [inorder]
      cases hvalue : compare value with
      | none =>
          rw [hvalue] at h
          cases h
      | some o =>
          rw [hvalue] at h
          cases o with
          | eq =>
              obtain ⟨rfl, -⟩ := Prod.mk.inj (Option.some.inj h)
              simp
          | gt =>
              obtain ⟨⟨path', result'⟩, hside, heq⟩ := Option.map_eq_some_iff.mp h
              obtain ⟨rfl, -⟩ := Prod.mk.inj heq
              refine List.forall_mem_cons.mpr ⟨by simp, fun v hv => ?_⟩
              exact List.mem_append_left _ (ihl hside v hv)
          | lt =>
              obtain ⟨⟨path', result'⟩, hside, heq⟩ := Option.map_eq_some_iff.mp h
              obtain ⟨rfl, -⟩ := Prod.mk.inj heq
              refine List.forall_mem_cons.mpr ⟨by simp, fun v hv => ?_⟩
              exact List.mem_append_right _ (List.mem_cons_of_mem _ (ihr hside v hv))

/-- A value is linked between those that are not above it and those that are not below it. -/
theorem link_place [Std.TransCmp order] (hsorted : Sorted order t.inorder)
    (hcompare : ∀ v ∈ t.inorder, order v x ≠ .eq → compare v = some (order v x))
    (h : t.link compare x = some (path, some t')) :
    ∃ before after, t.inorder = before ++ after ∧ t'.inorder = before ++ x :: after ∧
      (∀ v ∈ before, order x v ≠ .lt) ∧ ∀ v ∈ after, order v x ≠ .lt := by
  induction t generalizing path t' with
  | leaf =>
      obtain ⟨-, hlinked⟩ := Prod.mk.inj (Option.some.inj h)
      obtain rfl := Option.some.inj hlinked
      exact ⟨[], [], rfl, rfl, by simp, by simp⟩
  | node red left value right ihl ihr =>
      rw [inorder, Sorted, List.pairwise_append, List.pairwise_cons] at hsorted
      obtain ⟨hleft, ⟨hvalueRight, hright⟩, hcross⟩ := hsorted
      have hvalue := hcompare value (by simp [inorder])
      rw [link] at h
      cases ho : compare value with
      | none =>
          rw [ho] at h
          cases h
      | some o =>
          rw [ho] at h hvalue
          cases o with
          | eq => cases h
          | gt =>
              obtain ⟨⟨path', result⟩, hside, heq⟩ := Option.map_eq_some_iff.mp h
              obtain ⟨-, hsome⟩ := Prod.mk.inj heq
              obtain ⟨left', rfl, rfl⟩ := Option.map_eq_some_iff.mp hsome
              obtain ⟨before, after, hvalues, hlinked, hbefore, hafter⟩ :=
                ihl hleft (fun v hv => hcompare v (by simp [inorder, hv])) hside
              have hge : order value x ≠ .lt := by
                intro hlt
                have hgt := hvalue (by rw [hlt]; decide)
                rw [hlt] at hgt
                cases hgt
              refine ⟨before, after ++ value :: right.inorder, ?_, ?_, hbefore, fun v hv => ?_⟩
              · rw [inorder, hvalues, List.append_assoc]
              · rw [inorder, hlinked]
                simp
              · rcases List.mem_append.mp hv with hv | hv
                · exact hafter v hv
                · rcases List.mem_cons.mp hv with rfl | hv
                  · exact hge
                  · exact not_lt_of_not_lt (hvalueRight v hv) hge
          | lt =>
              obtain ⟨⟨path', result⟩, hside, heq⟩ := Option.map_eq_some_iff.mp h
              obtain ⟨-, hsome⟩ := Prod.mk.inj heq
              obtain ⟨right', rfl, rfl⟩ := Option.map_eq_some_iff.mp hsome
              obtain ⟨before, after, hvalues, hlinked, hbefore, hafter⟩ :=
                ihr hright (fun v hv => hcompare v (by simp [inorder, hv])) hside
              have hle : order x value ≠ .lt := by
                rw [ne_eq, ← gt_iff_lt]
                intro hgt
                have hlt := hvalue (by rw [hgt]; decide)
                rw [hgt] at hlt
                cases hlt
              refine ⟨left.inorder ++ value :: before, after, ?_, ?_, fun v hv => ?_, hafter⟩
              · rw [inorder, hvalues]
                simp
              · rw [inorder, hlinked]
                simp
              · rcases List.mem_append.mp hv with hv | hv
                · exact not_lt_of_not_lt hle (hcross v hv value List.mem_cons_self)
                · rcases List.mem_cons.mp hv with rfl | hv
                  · exact hle
                  · exact hbefore v hv

/-- A value is linked between those below it and those above it. -/
theorem link_between (h : t.inorder = before ++ after)
    (hbefore : ∀ v ∈ before, compare v = some .lt) (hafter : ∀ v ∈ after, compare v = some .gt) :
    ∃ path t', t.link compare x = some (path, some t') ∧ t'.inorder = before ++ x :: after := by
  induction t generalizing before after with
  | leaf =>
      obtain ⟨rfl, rfl⟩ := List.append_eq_nil_iff.mp h.symm
      exact ⟨[], _, rfl, rfl⟩
  | node red left value right ihl ihr =>
      rw [inorder] at h
      rcases List.append_eq_append_iff.mp h with ⟨rest, rfl, hrest⟩ | ⟨rest, hleft, rfl⟩
      · cases rest with
        | nil =>
            obtain rfl := hrest
            obtain ⟨path, left', hlink, hinorder⟩ :=
              ihl (List.append_nil _).symm (by simpa using hbefore) (by simp)
            refine ⟨value :: path, .node red left' value right, ?_, ?_⟩
            · rw [link, hafter value List.mem_cons_self, hlink]
              rfl
            · rw [inorder, hinorder]
              simp
        | cons v rest =>
            obtain ⟨rfl, hright⟩ := List.cons.inj hrest
            obtain ⟨path, right', hlink, hinorder⟩ :=
              ihr hright (fun v hv => hbefore v (by simp [hv])) hafter
            refine ⟨value :: path, .node red left value right', ?_, ?_⟩
            · rw [link, hbefore value (by simp), hlink]
              rfl
            · rw [inorder, hinorder]
              simp
      · obtain ⟨path, left', hlink, hinorder⟩ :=
          ihl hleft hbefore fun v hv => hafter v (by simp [hv])
        refine ⟨value :: path, .node red left' value right, ?_, ?_⟩
        · rw [link, hafter value (by simp), hlink]
          rfl
        · rw [inorder, hinorder]
          simp

/-- The value between those below and those above a new one decides what happens to it. -/
theorem link_around (h : t.inorder = before ++ a :: after)
    (hbefore : ∀ v ∈ before, compare v = some .lt) (hafter : ∀ v ∈ after, compare v = some .gt) :
    (compare a = none → t.link compare x = none) ∧
      (compare a = some .eq → ∃ path, t.link compare x = some (path, none)) ∧
      (compare a = some .gt → ∃ path t', t.link compare x = some (path, some t') ∧
        t'.inorder = before ++ x :: a :: after) ∧
      (compare a = some .lt → ∃ path t', t.link compare x = some (path, some t') ∧
        t'.inorder = before ++ a :: x :: after) := by
  have hgt : compare a = some .gt → ∃ path t', t.link compare x = some (path, some t') ∧
      t'.inorder = before ++ x :: a :: after := fun ha =>
    link_between h hbefore (List.forall_mem_cons.mpr ⟨ha, hafter⟩)
  have hlt : compare a = some .lt → ∃ path t', t.link compare x = some (path, some t') ∧
      t'.inorder = before ++ a :: x :: after := by
    intro ha
    have hsplit : t.inorder = (before ++ [a]) ++ after := by simp [h]
    obtain ⟨path, t', hlink, hinorder⟩ := link_between (x := x) hsplit
      (fun v hv => (List.mem_append.mp hv).elim (hbefore v) fun hv => by
        rw [List.mem_singleton.mp hv, ha]) hafter
    exact ⟨path, t', hlink, by simp [hinorder]⟩
  refine ⟨?_, ?_, hgt, hlt⟩
  all_goals
    clear hgt hlt
    intro ha
    induction t generalizing before after with
    | leaf => simp [inorder] at h
    | node red left value right ihl ihr =>
        rw [inorder] at h
        rcases List.append_eq_append_iff.mp h with ⟨rest, rfl, hrest⟩ | ⟨rest, hleft, hrest⟩
        · cases rest with
          | nil =>
              obtain ⟨rfl, rfl⟩ := List.cons.inj hrest
              simp [link, ha]
          | cons v rest =>
              obtain ⟨rfl, hright⟩ := List.cons.inj hrest
              have hside := ihr hright (fun v hv => hbefore v (by simp [hv])) hafter
              simp [link, hbefore value (by simp), hside]
        · cases rest with
          | nil =>
              obtain ⟨rfl, rfl⟩ := List.cons.inj hrest
              simp [link, ha]
          | cons v rest =>
              obtain ⟨rfl, rfl⟩ := List.cons.inj hrest
              have hside := ihl hleft hbefore fun v hv => hafter v (by simp [hv])
              simp [link, hafter value (by simp), hside]

end Link

section Insert

variable [Std.TransCmp order] {compare : α → α → Option Ordering}
  {balance : SearchTree α → SearchTree α} {xs ys : List α}

/-- Inserting a value leaves the tree as it is if an equal one is met, and adds the value in its
place otherwise. -/
theorem insert_cases (hbalance : ∀ t, (balance t).inorder = t.inorder)
    (hrefines : Refines order compare) (hsorted : Sorted order t.inorder)
    (h : insert balance compare t x = some t') :
    Sorted order t'.inorder ∧ (t' = t ∧ (∃ v ∈ t.inorder, compare v x = some .eq) ∨
      ∃ before after, t.inorder = before ++ after ∧ t'.inorder = before ++ x :: after) := by
  rw [insert] at h
  cases hlink : t.link (fun v => compare v x) x with
  | none =>
      rw [hlink] at h
      cases h
  | some r =>
      obtain ⟨path, result⟩ := r
      rw [hlink] at h
      cases result with
      | none =>
          obtain rfl := Option.some.inj h
          exact ⟨hsorted, Or.inl ⟨rfl, link_none hlink⟩⟩
      | some linked =>
          obtain rfl := Option.some.inj h
          obtain ⟨before, after, hvalues, hlinked, hbefore, hafter⟩ :=
            link_place hsorted (fun v _ => hrefines v x) hlink
          rw [hbalance]
          refine ⟨?_, Or.inr ⟨before, after, hvalues, hlinked⟩⟩
          rw [hvalues, Sorted, List.pairwise_append] at hsorted
          rw [hlinked, Sorted, List.pairwise_append, List.pairwise_cons]
          refine ⟨hsorted.1, ⟨hafter, hsorted.2.1⟩, fun v hv w hw => ?_⟩
          rcases List.mem_cons.mp hw with rfl | hw
          · exact hbefore v hv
          · exact hsorted.2.2 v hv w hw

omit [Std.TransCmp order] in
theorem insertAll_append :
    insertAll balance compare t (xs ++ ys) =
      (insertAll balance compare t xs).bind fun t => insertAll balance compare t ys := by
  induction xs generalizing t with
  | nil => rfl
  | cons x xs ih =>
      rw [List.cons_append, insertAll, insertAll]
      cases insert balance compare t x with
      | none => rfl
      | some t => exact ih

/-- Values are added to those that are there, which keep their order. -/
theorem insertAll_grows (hbalance : ∀ t, (balance t).inorder = t.inorder)
    (hrefines : Refines order compare) (hsorted : Sorted order t.inorder)
    (h : insertAll balance compare t xs = some t') :
    Sorted order t'.inorder ∧ t.inorder.Sublist t'.inorder ∧
      ∀ v ∈ t'.inorder, v ∈ t.inorder ∨ v ∈ xs := by
  induction xs generalizing t with
  | nil =>
      obtain rfl := Option.some.inj h
      exact ⟨hsorted, List.Sublist.refl _, fun v hv => Or.inl hv⟩
  | cons x xs ih =>
      obtain ⟨t₁, hinsert, hrest⟩ := Option.bind_eq_some_iff.mp h
      obtain ⟨hsorted₁, hcases⟩ := insert_cases hbalance hrefines hsorted hinsert
      obtain ⟨hsorted', hsublist, hmem⟩ := ih hsorted₁ hrest
      have hstep : t.inorder.Sublist t₁.inorder ∧ ∀ v ∈ t₁.inorder, v ∈ t.inorder ∨ v = x := by
        rcases hcases with ⟨rfl, -⟩ | ⟨before, after, hvalues, hlinked⟩
        · exact ⟨List.Sublist.refl _, fun v hv => Or.inl hv⟩
        · rw [hvalues, hlinked]
          refine ⟨(List.Sublist.refl _).append (List.sublist_cons_self _ _), fun v hv => ?_⟩
          simp only [List.mem_append, List.mem_cons] at hv ⊢
          rcases hv with hv | hv | hv
          · exact Or.inl (Or.inl hv)
          · exact Or.inr hv
          · exact Or.inl (Or.inr hv)
      refine ⟨hsorted', hstep.1.trans hsublist, fun v hv => ?_⟩
      rcases hmem v hv with hv | hv
      · rcases hstep.2 v hv with hv | rfl
        · exact Or.inl hv
        · exact Or.inr List.mem_cons_self
      · exact Or.inr (List.mem_cons_of_mem _ hv)

/-- Inserting values that are not equal to `a` leaves those equal to `a` as they are. -/
theorem insertAll_equals (hbalance : ∀ t, (balance t).inorder = t.inorder)
    (hrefines : Refines order compare) (hsorted : Sorted order t.inorder)
    (hxs : equals order a xs = []) (h : insertAll balance compare t xs = some t') :
    equals order a t'.inorder = equals order a t.inorder := by
  induction xs generalizing t with
  | nil =>
      obtain rfl := Option.some.inj h
      rfl
  | cons x xs ih =>
      obtain ⟨t₁, hinsert, hrest⟩ := Option.bind_eq_some_iff.mp h
      obtain ⟨hsorted₁, hcases⟩ := insert_cases hbalance hrefines hsorted hinsert
      have hx : order x a ≠ .eq := by
        simpa using List.filter_eq_nil_iff.mp hxs x List.mem_cons_self
      have hxs' : equals order a xs = [] := List.filter_eq_nil_iff.mpr fun v hv =>
        List.filter_eq_nil_iff.mp hxs v (List.mem_cons_of_mem _ hv)
      rw [ih hsorted₁ hxs' hrest]
      rcases hcases with ⟨rfl, -⟩ | ⟨before, after, hvalues, hlinked⟩
      · rfl
      · simp [equals, hvalues, hlinked, List.filter_append, hx]

/-- A value to which none is equal is put into the tree. -/
theorem insert_fresh (hbalance : ∀ t, (balance t).inorder = t.inorder)
    (hrefines : Refines order compare) (hsorted : Sorted order t.inorder)
    (hnone : equals order a t.inorder = []) (h : insert balance compare t a = some t') :
    equals order a t'.inorder = [a] := by
  have hfresh : ∀ v ∈ t.inorder, order v a ≠ .eq := fun v hv => by
    simpa using List.filter_eq_nil_iff.mp hnone v hv
  rcases (insert_cases hbalance hrefines hsorted h).2 with
    ⟨-, v, hv, heq⟩ | ⟨before, after, hvalues, hlinked⟩
  · rw [hrefines v a (hfresh v hv)] at heq
    exact absurd (Option.some.inj heq) (hfresh v hv)
  · rw [hvalues, equals, List.filter_append, List.append_eq_nil_iff] at hnone
    simp [equals, hlinked, List.filter_append, hnone.1, hnone.2, Std.ReflCmp.compare_self]

omit [Std.TransCmp order] in
theorem around_of_equals [Std.OrientedCmp order] (hsorted : Sorted order xs)
    (hone : equals order a xs = [a]) : ∃ before after, xs = before ++ a :: after ∧
      (∀ v ∈ before, order v a = .lt) ∧ ∀ v ∈ after, order v a = .gt := by
  obtain ⟨before, after, rfl, hbefore, -, hafter⟩ := List.filter_eq_cons_iff.mp hone
  rw [Sorted, List.pairwise_append, List.pairwise_cons] at hsorted
  refine ⟨before, after, rfl, fun v hv => ?_, fun v hv => ?_⟩
  · have hne : order v a ≠ .eq := by simpa using hbefore v hv
    have hle := hsorted.2.2 v hv a List.mem_cons_self
    rw [@Std.OrientedCmp.eq_swap _ order] at hle
    cases hcase : order v a with
    | lt => rfl
    | eq => exact absurd hcase hne
    | gt => simp [hcase] at hle
  · have hne : order v a ≠ .eq := by simpa using List.filter_eq_nil_iff.mp hafter v hv
    have hge := hsorted.2.1.1 v hv
    cases hcase : order v a with
    | gt => rfl
    | eq => exact absurd hcase hne
    | lt => exact absurd hcase hge

/-- A value is compared with the only one that is equal to it. -/
theorem insert_meets (hbalance : ∀ t, (balance t).inorder = t.inorder)
    (hrefines : Refines order compare) (hsorted : Sorted order t.inorder)
    (hone : equals order a t.inorder = [a]) (hx : order x a = .eq)
    (h : insert balance compare t x = some t') :
    ∃ o, compare a x = some o ∧ (o = .eq → t' = t) ∧
      (o = .gt → [x, a].Sublist t'.inorder) ∧ (o = .lt → [a, x].Sublist t'.inorder) := by
  obtain ⟨before, after, hvalues, hbefore, hafter⟩ := around_of_equals hsorted hone
  have hlt : ∀ v ∈ before, compare v x = some .lt := by
    intro v hv
    have hvx := Std.TransCmp.lt_of_lt_of_eq (hbefore v hv) (eq_comm_order hx)
    rw [hrefines v x (by rw [hvx]; decide), hvx]
  have hgt : ∀ v ∈ after, compare v x = some .gt := by
    intro v hv
    have hvx := Std.TransCmp.gt_of_gt_of_eq (hafter v hv) (eq_comm_order hx)
    rw [hrefines v x (by rw [hvx]; decide), hvx]
  obtain ⟨hnone, heq, hleft, hright⟩ := link_around (x := x) hvalues hlt hgt
  rw [insert] at h
  cases hcompare : compare a x with
  | none =>
      rw [hnone hcompare] at h
      cases h
  | some o =>
      refine ⟨o, rfl, ?_, ?_, ?_⟩
      · rintro rfl
        obtain ⟨path, hlink⟩ := heq hcompare
        rw [hlink] at h
        exact (Option.some.inj h).symm
      · rintro rfl
        obtain ⟨path, linked, hlink, hinorder⟩ := hleft hcompare
        rw [hlink] at h
        obtain rfl := Option.some.inj h
        rw [hbalance, hinorder]
        refine List.Sublist.trans ?_ (List.sublist_append_right _ _)
        exact ((List.nil_sublist after).cons_cons a).cons_cons x
      · rintro rfl
        obtain ⟨path, linked, hlink, hinorder⟩ := hright hcompare
        rw [hlink] at h
        obtain rfl := Option.some.inj h
        rw [hbalance, hinorder]
        refine List.Sublist.trans ?_ (List.sublist_append_right _ _)
        exact ((List.nil_sublist after).cons_cons x).cons_cons a

omit [Std.TransCmp order] in
theorem sorted_leaf : Sorted order (leaf (α := α)).inorder := List.Pairwise.nil

/-- The only one of the values that is equal to one of them is put into the tree. -/
theorem insertAll_one (hbalance : ∀ t, (balance t).inorder = t.inorder)
    (hrefines : Refines order compare) (hone : equals order a xs = [a])
    (h : insertAll balance compare .leaf xs = some t) : equals order a t.inorder = [a] := by
  obtain ⟨before, after, rfl, hbefore, -, hafter⟩ := List.filter_eq_cons_iff.mp hone
  rw [insertAll_append] at h
  obtain ⟨t₁, hrun₁, h⟩ := Option.bind_eq_some_iff.mp h
  obtain ⟨t₂, hinsert, hrun₂⟩ := Option.bind_eq_some_iff.mp h
  obtain ⟨hsorted₁, -⟩ := insertAll_grows hbalance hrefines sorted_leaf hrun₁
  obtain ⟨hsorted₂, -⟩ := insert_cases hbalance hrefines hsorted₁ hinsert
  have hnone := insertAll_equals hbalance hrefines sorted_leaf
    (List.filter_eq_nil_iff.mpr hbefore) hrun₁
  rw [insertAll_equals hbalance hrefines hsorted₂ hafter hrun₂]
  exact insert_fresh hbalance hrefines hsorted₁ hnone hinsert

/-- A value is compared with the only one before it that is equal to it, and they stay in the order
that the comparison says. -/
theorem insertAll_meets {b : α} (hbalance : ∀ t, (balance t).inorder = t.inorder)
    (hrefines : Refines order compare) (hone : equals order a xs = [a]) (hb : order b a = .eq)
    (h : insertAll balance compare .leaf (xs ++ b :: ys) = some t) :
    ∃ o, compare a b = some o ∧ (o = .gt → [b, a].Sublist t.inorder) ∧
      (o = .lt → [a, b].Sublist t.inorder) := by
  rw [insertAll_append] at h
  obtain ⟨t₁, hrun₁, h⟩ := Option.bind_eq_some_iff.mp h
  obtain ⟨t₂, hinsert, hrun₂⟩ := Option.bind_eq_some_iff.mp h
  obtain ⟨hsorted₁, -⟩ := insertAll_grows hbalance hrefines sorted_leaf hrun₁
  obtain ⟨hsorted₂, -⟩ := insert_cases hbalance hrefines hsorted₁ hinsert
  obtain ⟨-, hsublist, -⟩ := insertAll_grows hbalance hrefines hsorted₂ hrun₂
  obtain ⟨o, hcompare, -, hgt, hlt⟩ := insert_meets hbalance hrefines hsorted₁
    (insertAll_one hbalance hrefines hone hrun₁) hb hinsert
  exact ⟨o, hcompare, fun ho => (hgt ho).trans hsublist, fun ho => (hlt ho).trans hsublist⟩

/-- Values that are taken for the only one that is equal to them are left out. -/
theorem insertAll_leaves (hbalance : ∀ t, (balance t).inorder = t.inorder)
    (hrefines : Refines order compare) (hsorted : Sorted order t.inorder)
    (hone : equals order a t.inorder = [a])
    (hxs : ∀ x ∈ xs, order x a = .eq → compare a x = some .eq)
    (h : insertAll balance compare t xs = some t') :
    Sorted order t'.inorder ∧ ∀ v ∈ t'.inorder, v ∈ t.inorder ∨ v ∈ xs ∧ order v a ≠ .eq := by
  induction xs generalizing t with
  | nil =>
      obtain rfl := Option.some.inj h
      exact ⟨hsorted, fun v hv => Or.inl hv⟩
  | cons x xs ih =>
      obtain ⟨t₁, hinsert, hrest⟩ := Option.bind_eq_some_iff.mp h
      have hxs' : ∀ x ∈ xs, order x a = .eq → compare a x = some .eq :=
        fun x hx => hxs x (List.mem_cons_of_mem _ hx)
      by_cases hx : order x a = .eq
      · obtain ⟨o, hcompare, hsame, -⟩ := insert_meets hbalance hrefines hsorted hone hx hinsert
        obtain rfl := Option.some.inj ((hxs x List.mem_cons_self hx).symm.trans hcompare)
        obtain rfl := hsame rfl
        obtain ⟨hsorted', hmem⟩ := ih hsorted hone hxs' hrest
        exact ⟨hsorted', fun v hv => (hmem v hv).imp id fun hv =>
          ⟨List.mem_cons_of_mem _ hv.1, hv.2⟩⟩
      · have hinsert' : insertAll balance compare t [x] = some t₁ := by simp [insertAll, hinsert]
        obtain ⟨hsorted₁, -, hmem₁⟩ := insertAll_grows hbalance hrefines hsorted hinsert'
        have hone₁ : equals order a t₁.inorder = [a] := by
          rw [insertAll_equals hbalance hrefines hsorted (by simp [equals, hx]) hinsert', hone]
        obtain ⟨hsorted', hmem⟩ := ih hsorted₁ hone₁ hxs' hrest
        refine ⟨hsorted', fun v hv => ?_⟩
        rcases hmem v hv with hv | hv
        · rcases hmem₁ v hv with hv | hv
          · exact Or.inl hv
          · obtain rfl := List.mem_singleton.mp hv
            exact Or.inr ⟨List.mem_cons_self, hx⟩
        · exact Or.inr ⟨List.mem_cons_of_mem _ hv.1, hv.2⟩

/-- Inserting into an empty tree drops the values `ys` that are equal to the value `a` inserted
before them. -/
theorem insertAll_drops {zs : List α} (hbalance : ∀ t, (balance t).inorder = t.inorder)
    (hrefines : Refines order compare) (hone : equals order a xs = [a])
    (hys : ∀ y ∈ ys, order y a = .eq → compare a y = some .eq)
    (h : insertAll balance compare .leaf (xs ++ (ys ++ zs)) = some t) :
    ∀ v ∈ t.inorder, v ∈ xs ∨ v ∈ ys ∧ order v a ≠ .eq ∨ v ∈ zs := by
  rw [insertAll_append] at h
  obtain ⟨t₁, hrun₁, h⟩ := Option.bind_eq_some_iff.mp h
  rw [insertAll_append] at h
  obtain ⟨t₂, hrun₂, hrun₃⟩ := Option.bind_eq_some_iff.mp h
  obtain ⟨hsorted₁, -, hmem₁⟩ := insertAll_grows hbalance hrefines sorted_leaf hrun₁
  obtain ⟨hsorted₂, hmem₂⟩ := insertAll_leaves hbalance hrefines hsorted₁
    (insertAll_one hbalance hrefines hone hrun₁) hys hrun₂
  obtain ⟨-, -, hmem₃⟩ := insertAll_grows hbalance hrefines hsorted₂ hrun₃
  intro v hv
  rcases hmem₃ v hv with hv | hv
  · rcases hmem₂ v hv with hv | hv
    · exact Or.inl ((hmem₁ v hv).resolve_left (by simp [inorder]))
    · exact Or.inr (Or.inl hv)
  · exact Or.inr (Or.inr hv)

end Insert

end SearchTree

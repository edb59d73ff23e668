import Pahole.Support.TreeLookup

/-!
# Search trees by their keys

A tree whose values are compared by their keys and the tree of the keys are searched alike, and
what is linked does not depend on the shapes of the trees.
-/

namespace SearchTree

variable {α β : Type*} {key : α → β} {x : α} {t : SearchTree α}

/-- A tree of the keys. -/
def map (key : α → β) : SearchTree α → SearchTree β
  | .leaf => .leaf
  | .node red left value right => .node red (left.map key) (key value) (right.map key)

theorem inorder_map : (t.map key).inorder = t.inorder.map key := by
  induction t with
  | leaf => rfl
  | node red left value right ihl ihr =>
      rw [map, inorder, ihl, ihr, inorder, List.map_append, List.map_cons]

/-- Linking commutes with taking keys, if the comparison goes by keys. -/
theorem link_map {compare : β → Option Ordering} : (t.map key).link compare (key x) =
    (t.link (fun v => compare (key v)) x).map fun r => (r.1.map key, r.2.map (map key)) := by
  induction t with
  | leaf => rfl
  | node red left value right ihl ihr =>
      rw [map, link, link]
      cases compare (key value) with
      | none => rfl
      | some o =>
          cases o with
          | gt =>
              dsimp only
              rw [ihl, Option.map_map, Option.map_map]
              refine congrArg (fun f => Option.map f _) (funext fun r => ?_)
              rcases r with ⟨values, _ | linked⟩ <;> rfl
          | lt =>
              dsimp only
              rw [ihr, Option.map_map, Option.map_map]
              refine congrArg (fun f => Option.map f _) (funext fun r => ?_)
              rcases r with ⟨values, _ | linked⟩ <;> rfl
          | eq => rfl

theorem map_congr {key' : α → β} (h : ∀ v ∈ t.inorder, key v = key' v) :
    t.map key = t.map key' := by
  induction t with
  | leaf => rfl
  | node red left value right ihl ihr =>
      obtain ⟨hleft, hright⟩ := List.forall_mem_append.mp h
      obtain ⟨hvalue, hright⟩ := List.forall_mem_cons.mp hright
      rw [map, map, ihl hleft, ihr hright, hvalue]

theorem link_congr {compare compare' : α → Option Ordering}
    (h : ∀ v ∈ t.inorder, compare v = compare' v) : t.link compare x = t.link compare' x := by
  induction t with
  | leaf => rfl
  | node red left value right ihl ihr =>
      obtain ⟨hleft, hright⟩ := List.forall_mem_append.mp h
      obtain ⟨hvalue, hright⟩ := List.forall_mem_cons.mp hright
      rw [link, link, ihl hleft, ihr hright, hvalue]

theorem lookup_map {side : β → Ordering} :
    (t.map key).lookup side = (t.lookup fun v => side (key v)).map key := by
  induction t with
  | leaf => rfl
  | node red left value right ihl ihr =>
      rw [map, lookup, lookup]
      cases side (key value) with
      | lt => exact ihl
      | gt => exact ihr
      | eq => rfl

/-- Linking adds the value to those of the tree. -/
theorem link_perm {compare : α → Option Ordering} {values : List α} {linked : SearchTree α}
    (h : t.link compare x = some (values, some linked)) : linked.inorder.Perm (x :: t.inorder) := by
  induction t generalizing values linked with
  | leaf =>
      cases h
      exact List.Perm.refl _
  | node red left value right ihl ihr =>
      rw [link] at h
      cases hcompare : compare value with
      | none =>
          rw [hcompare] at h
          cases h
      | some o =>
          rw [hcompare] at h
          cases o with
          | gt =>
              obtain ⟨r, hside, heq⟩ := Option.map_eq_some_iff.mp h
              obtain ⟨linked', hlinked', rfl⟩ := Option.map_eq_some_iff.mp (Prod.mk.inj heq).2
              exact (ihl (hside.trans (congrArg some (Prod.ext rfl hlinked')))).append_right _
          | lt =>
              obtain ⟨r, hside, heq⟩ := Option.map_eq_some_iff.mp h
              obtain ⟨linked', hlinked', rfl⟩ := Option.map_eq_some_iff.mp (Prod.mk.inj heq).2
              have hright := ihr (hside.trans (congrArg some (Prod.ext rfl hlinked')))
              refine ((hright.cons value).append_left left.inorder).trans ?_
              exact ((List.Perm.swap x value _).append_left _).trans List.perm_middle
          | eq => cases h

section Order

variable {order : β → β → Ordering} [Std.TransCmp order] {s : SearchTree β}
  {compare : β → β → Option Ordering}

/-- Values are compared as their keys are. -/
instance onKey (key : α → β) : Std.TransCmp fun a b => order (key a) (key b) where
  eq_swap := Std.OrientedCmp.eq_swap
  isLE_trans hab hbc := Std.TransCmp.isLE_trans hab hbc

/-- Two ascending lists of the same values are equal. -/
theorem Ascending.eq_of_perm {xs ys : List β} (hx : Ascending order xs) (hy : Ascending order ys)
    (hperm : xs.Perm ys) : xs = ys := by
  refine hperm.eq_of_pairwise (fun a b _ _ hab hba => ?_) hx hy
  rw [← gt_iff_lt, hab] at hba
  cases hba

/-- Trees of the same keys, whatever shapes they have, find the same or are linked to trees of the
same keys. -/
theorem link_map_eq (hkeys : t.inorder.map key = s.inorder) (hasc : Ascending order s.inorder)
    (hcompare : ∀ v ∈ s.inorder, compare v (key x) = some (order v (key x))) :
    (∃ path path', t.link (fun v => compare (key v) (key x)) x = some (path, none) ∧
      s.link (fun v => compare v (key x)) (key x) = some (path', none)) ∨
    ∃ path path' linked linked',
      t.link (fun v => compare (key v) (key x)) x = some (path, some linked) ∧
      s.link (fun v => compare v (key x)) (key x) = some (path', some linked') ∧
      linked.inorder.map key = linked'.inorder ∧ Ascending order linked'.inorder ∧
      linked.inorder.Perm (x :: t.inorder) ∧ linked'.inorder.Perm (key x :: s.inorder) := by
  have hascT : Ascending (fun a b => order (key a) (key b)) t.inorder := by
    rw [← hkeys] at hasc
    exact List.pairwise_map.mp hasc
  have hprobe : ∀ v ∈ s.inorder,
      compare v (key x) = some (probe order (fun _ => true) (key x) v) := by
    intro v hv
    rw [hcompare v hv, probe]
    cases order v (key x) <;> rfl
  have hmem : ∀ v ∈ t.inorder, key v ∈ s.inorder := by
    intro v hv
    rw [← hkeys]
    exact List.mem_map_of_mem hv
  have hprobeT : ∀ v ∈ t.inorder, compare (key v) (key x) =
      some (probe (fun a b => order (key a) (key b)) (fun _ => true) x v) :=
    fun v hv => hprobe (key v) (hmem v hv)
  obtain ⟨path, result, hlink, hspec⟩ := link_spec hascT.sorted (fun _ _ _ _ _ => rfl) hprobeT
  obtain ⟨path', result', hlink', hspec'⟩ := link_spec hasc.sorted (fun _ _ _ _ _ => rfl) hprobe
  cases result with
  | none =>
      cases result' with
      | none => exact Or.inl ⟨path, path', hlink, hlink'⟩
      | some linked' =>
          obtain ⟨v, hv, heq, -⟩ := hspec.found rfl
          cases (hspec'.linked linked' rfl).1 (key v) (hmem v hv) heq
  | some linked =>
      cases result' with
      | none =>
          obtain ⟨k, hk, heq, -⟩ := hspec'.found rfl
          rw [← hkeys] at hk
          obtain ⟨v, hv, rfl⟩ := List.mem_map.mp hk
          cases (hspec.linked linked rfl).1 v hv heq
      | some linked' =>
          have hasc' := hspec'.ascending hasc hasc.sorted rfl
          have hascLinked := hspec.ascending hascT hascT.sorted rfl
          have hperm : (linked.inorder.map key).Perm linked'.inorder := by
            refine ((hspec.perm rfl).map key).trans ?_
            rw [List.map_cons, hkeys]
            exact (hspec'.perm rfl).symm
          have heq := Ascending.eq_of_perm (List.pairwise_map.mpr hascLinked) hasc' hperm
          exact Or.inr ⟨path, path', linked, linked', hlink, hlink', heq, hasc', hspec.perm rfl,
            hspec'.perm rfl⟩

end Order

end SearchTree

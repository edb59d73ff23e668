import Pahole.Rbtree.Erase

/-!
# Walks along a red-black tree

`rb_first` and `rb_next` go from node to node in the order of the tree, and `rb_last` and `rb_prev`
the other way round.
-/

namespace Pahole

open SearchTree

namespace RbMem

variable {N : Type*} [DecidableEq N]

omit [DecidableEq N] in
/-- As far as it goes to a side. -/
def outermost (side : Side) : ℕ → RbMem N → N → Option N
  | 0, _, _ => none
  | fuel + 1, m, n =>
      match m.child side n with
      | some n => outermost side fuel m n
      | none => some n

/-- `rb_first` and `rb_last`; the result of a walk that ends is a node, or `NULL` -/
def rbEnd (side : Side) (fuel : ℕ) (m : RbMem N) : Option (Option N) :=
  match m.root with
  | none => some none
  | some n => (outermost side fuel m n).map some

/-- `rb_first` -/
def rbFirst (fuel : ℕ) (m : RbMem N) : Option (Option N) := rbEnd .left fuel m

/-- `rb_last` -/
def rbLast (fuel : ℕ) (m : RbMem N) : Option (Option N) := rbEnd .right fuel m

/-- Up, as long as it is from the side. -/
def climb (side : Side) : ℕ → RbMem N → N → Option (Option N)
  | 0, _, _ => none
  | fuel + 1, m, node =>
      match (m.node node).parent with
      | none => some none
      | some parent =>
          if m.child side parent = some node then climb side fuel m parent else some (some parent)

/-- `rb_next`, and `rb_prev` with the sides changed. -/
def rbStep (side : Side) (fuel : ℕ) (m : RbMem N) (node : N) : Option (Option N) :=
  if (m.node node).parent = some node then some none
  else match m.child side node with
    | some n => (outermost side.other fuel m n).map some
    | none => climb side fuel m node

/-- `rb_next` -/
def rbNext (fuel : ℕ) (m : RbMem N) (node : N) : Option (Option N) := rbStep .right fuel m node

/-- `rb_prev` -/
def rbPrev (fuel : ℕ) (m : RbMem N) (node : N) : Option (Option N) := rbStep .left fuel m node

/-! ## The order of a tree -/

section Walk

variable {m : RbMem N} {path : List (Frame N)} {t near far : SearchTree N} {side : Side} {a b : N}
  {red : Bool} {fuel : ℕ}

omit [DecidableEq N]

/-- The values as they come on the way to a side. -/
def along (side : Side) (t : SearchTree N) : List N :=
  match side with
  | .left => t.inorder.reverse
  | .right => t.inorder

/-- The values that come on the way from a hole to a side. -/
def beyond (side : Side) (path : List (Frame N)) : List N :=
  match side with
  | .left => (before path).reverse
  | .right => after path

theorem along_join :
    along side (join side red near a far) = along side far ++ a :: along side near := by
  cases side with
  | left =>
      rw [along, join, inorder, List.reverse_append, List.reverse_cons, List.append_assoc,
        List.singleton_append]
      rfl
  | right => rfl

theorem along_join_other :
    along side.other (join side red near a far) =
      along side.other near ++ a :: along side.other far := by
  rw [← join_other, along_join]

theorem beyond_cons_same {value : N} {sibling : SearchTree N} :
    beyond side (⟨side, red, value, sibling⟩ :: path) = beyond side path := by
  cases side <;> rfl

theorem beyond_cons_other {value : N} {sibling : SearchTree N} :
    beyond side (⟨side.other, red, value, sibling⟩ :: path) =
      value :: (along side sibling ++ beyond side path) := by
  cases side with
  | left =>
      change (before path ++ (sibling.inorder ++ [value])).reverse = _
      rw [List.reverse_append, List.reverse_append, List.reverse_singleton, List.singleton_append]
      rfl
  | right => rfl

variable (side) in
theorem outermost_spec (h : m.Represents (plug path t)) (htop : t.top? = some b)
    (hfuel : t.height ≤ fuel) : ∃ first, outermost side fuel m b = some first ∧
      (along side.other t).head? = some first := by
  induction fuel generalizing path t b with
  | zero =>
      cases t with
      | leaf => cases htop
      | node red left value right => exact absurd hfuel (Nat.not_succ_le_zero _)
  | succ fuel ih =>
      obtain ⟨red, near, far, rfl⟩ := exists_join side htop
      have hnear : m.Represents (plug (⟨side, red, b, far⟩ :: path) near) := h
      have hchild : m.child side b = near.top? := by rw [child, h.cell, RbNode.child_towards]
      rw [outermost, hchild, along_join_other]
      cases htopNear : near.top? with
      | none =>
          rw [top?_eq_none htopNear]
          refine ⟨b, rfl, ?_⟩
          cases side <;> rfl
      | some c =>
          have hheight : near.height ≤ fuel := by
            have hle : near.height + 1 ≤ (join side red near b far).height := by
              cases side with
              | left => exact Nat.succ_le_succ (le_max_left _ _)
              | right => exact Nat.succ_le_succ (le_max_right _ _)
            omega
          obtain ⟨first, hrun, hfirst⟩ := ih hnear htopNear hheight
          refine ⟨first, hrun, ?_⟩
          rw [List.head?_append, hfirst]
          rfl

/-- `rb_first` and `rb_last` return the first node of a tree on their side. -/
theorem rbEnd_spec (h : m.Represents t) (hfuel : t.height ≤ fuel) :
    rbEnd side fuel m = some (along side.other t).head? := by
  have hplug : m.Represents (plug [] t) := h
  rw [rbEnd, h.root]
  cases htop : t.top? with
  | none =>
      rw [top?_eq_none htop]
      cases side <;> rfl
  | some b =>
      obtain ⟨first, hrun, hfirst⟩ := outermost_spec side hplug htop hfuel
      rw [hfirst]
      dsimp only
      rw [hrun]
      rfl

end Walk

section Steps

variable {m : RbMem N} {path : List (Frame N)} {t near far : SearchTree N} {side : Side} {a b : N}
  {red : Bool} {fuel : ℕ}

variable (side) in
theorem climb_spec (h : m.Represents (plug path t)) (htop : t.top? = some a)
    (hfuel : path.length < fuel) : climb side fuel m a = some (beyond side path).head? := by
  induction fuel generalizing path t a with
  | zero => exact absurd hfuel (Nat.not_lt_zero _)
  | succ fuel ih =>
      rw [climb, h.parent_eq htop]
      cases path with
      | nil => cases side <;> rfl
      | cons f path =>
          obtain ⟨s, red, value, sibling⟩ := f
          have hcell := h.cell_parent
          dsimp only [parentOf]
          rcases eq_or_ne s side with rfl | hne
          · have hchild : m.child s value = some a := by
              rw [child, hcell, RbNode.child_towards, htop]
            rw [if_pos hchild, beyond_cons_same]
            exact ih h top?_join (Nat.lt_of_succ_lt_succ hfuel)
          · have hside : s = side.other := by
              revert hne
              cases side <;> cases s <;> simp
            subst hside
            have hsibling := h.sibling_ne htop
            have hchild : m.child side value = sibling.top? := by
              rw [child, hcell, RbNode.towards_other, RbNode.child_towards]
            rw [hchild, if_neg (htop ▸ hsibling), beyond_cons_other]
            rfl

/-- `rb_next` and `rb_prev` return the node that comes next on their side. -/
theorem rbStep_spec (h : m.Represents (plug path (join side red near a far)))
    (hfuel : (plug path (join side red near a far)).height < fuel) :
    rbStep side fuel m a = some (along side near ++ beyond side path).head? := by
  have haAround := h.not_around (mem_inorder_join.mpr (Or.inl rfl))
  have hheight : path.length + (join side red near a far).height ≤ _ := length_add_height_le
  have hparent : (m.node a).parent ≠ some a := by
    rw [h.parent_eq top?_join]
    exact fun heq => haAround (mem_around_of_parentOf heq)
  have hnear : m.Represents (plug (⟨side, red, a, far⟩ :: path) near) := h
  have hchild : m.child side a = near.top? := by rw [child, h.cell, RbNode.child_towards]
  rw [rbStep, if_neg hparent, hchild]
  cases htop : near.top? with
  | none =>
      rw [top?_eq_none htop]
      have hclimb := climb_spec side h top?_join (by omega : path.length < fuel)
      dsimp only
      rw [hclimb]
      cases side <;> rfl
  | some b =>
      have hnearHeight : near.height ≤ fuel := by
        have hle : near.height + 1 ≤ (join side red near a far).height := by
          cases side with
          | left => exact Nat.succ_le_succ (le_max_left _ _)
          | right => exact Nat.succ_le_succ (le_max_right _ _)
        omega
      obtain ⟨first, hrun, hfirst⟩ := outermost_spec side.other hnear htop hnearHeight
      rw [Side.other_other] at hfirst
      dsimp only
      rw [hrun, List.head?_append, hfirst]
      rfl

end Steps

/-! ## Going through a tree -/

section Loops

variable {m m' : RbMem N} {path : List (Frame N)} {t : SearchTree N} {side : Side} {a : N}
  {xs ys : List N} {fuel rounds : ℕ} {junk : N → RbNode N}

/-- The nodes visited by the loop over a tree with `rb_next`, or with `rb_prev`. -/
def visitLoop (side : Side) (fuel : ℕ) : ℕ → RbMem N → Option N → Option (List N)
  | 0, _, _ => none
  | _ + 1, _, none => some []
  | rounds + 1, m, some pos => do
      let next ← rbStep side fuel m pos
      let visited ← visitLoop side fuel rounds m next
      some (pos :: visited)

/-- `__print_ordered_classes`: the nodes whose classes are printed -/
def printOrderedClasses (fuel rounds : ℕ) (m : RbMem N) : Option (List N) := do
  let next ← rbFirst fuel m
  visitLoop .right fuel rounds m next

/-- The loop `for (n = rb_last(root); n; n = rb_prev(n))`. -/
def visitBackwards (fuel rounds : ℕ) (m : RbMem N) : Option (List N) := do
  let next ← rbLast fuel m
  visitLoop .left fuel rounds m next

/-- The loop of `__structures__delete` and of `strlist__delete`: the nodes that are freed. -/
def deleteLoop (junk : N → RbNode N) (fuel : ℕ) : ℕ → RbMem N → Option N → Option (RbMem N × List N)
  | 0, _, _ => none
  | _ + 1, m, none => some (m, [])
  | rounds + 1, m, some pos => do
      let next ← rbNext fuel m pos
      let m ← rbErase fuel m pos
      let (m, freed) ← deleteLoop junk fuel rounds (m.update pos fun _ => junk pos) next
      some (m, pos :: freed)

/-- `__structures__delete` -/
def structuresDelete (junk : N → RbNode N) (fuel rounds : ℕ) (m : RbMem N) :
    Option (RbMem N × List N) := do
  let next ← rbFirst fuel m
  deleteLoop junk fuel rounds m next

/-- `strlist__delete` -/
def strlistDelete (junk : N → RbNode N) (fuel rounds : ℕ) (m : RbMem N) :
    Option (RbMem N × List N) := do
  let next ← rbFirst fuel m
  let (m, freed) ← deleteLoop junk fuel rounds m next
  some ({ m with root := none }, freed)

omit [DecidableEq N] in
theorem along_plug : along side (plug path t) =
    (beyond side.other path).reverse ++ (along side t ++ beyond side path) := by
  cases side with
  | left =>
      change (plug path t).inorder.reverse = _
      rw [inorder_plug, List.reverse_append, List.reverse_append, List.append_assoc]
      rfl
  | right =>
      change (plug path t).inorder = (before path).reverse.reverse ++ _
      rw [inorder_plug, List.reverse_reverse]
      rfl

omit [DecidableEq N] in
theorem along_perm : (along side t).Perm t.inorder := by
  cases side with
  | left => exact List.reverse_perm _
  | right => exact List.Perm.refl _

/-- From a node the walk goes to the one that comes after it. -/
theorem rbStep_along (h : m.Represents t) (hfuel : t.height < fuel)
    (halong : along side t = xs ++ a :: ys) : rbStep side fuel m a = some ys.head? := by
  have ha : a ∈ t.inorder := by
    have hmem : a ∈ along side t := by
      rw [halong]
      exact List.mem_append_right _ List.mem_cons_self
    exact along_perm.mem_iff.mp hmem
  have hnodup : (along side t).Nodup := along_perm.nodup_iff.mpr h.nodup
  rw [halong, List.nodup_middle, List.nodup_cons, List.mem_append, not_or] at hnodup
  obtain ⟨path, red, left, right, rfl⟩ := exists_plug ha
  obtain ⟨red, near, far, hjoin⟩ := exists_join side (t := .node red left a right) rfl
  rw [hjoin] at h hfuel halong
  rw [rbStep_spec h hfuel]
  rw [along_plug, along_join, List.append_assoc, List.cons_append, ← List.append_assoc] at halong
  obtain ⟨-, -, rfl⟩ := (List.append_cons_inj_of_notMem hnodup.1.1 hnodup.1.2).mp halong.symm
  rfl

omit [DecidableEq N] in
theorem rbFirst_spec (h : m.Represents t) (hheight : t.height < fuel) :
    rbFirst fuel m = some t.inorder.head? :=
  rbEnd_spec h hheight.le

theorem visitLoop_spec (h : m.Represents t) (hfuel : t.height < fuel)
    (halong : along side t = xs ++ ys) (hrounds : ys.length < rounds) :
    visitLoop side fuel rounds m ys.head? = some ys := by
  induction ys generalizing xs rounds with
  | nil =>
      obtain ⟨rounds, rfl⟩ := Nat.exists_eq_succ_of_ne_zero (Nat.ne_of_gt hrounds)
      rfl
  | cons a ys ih =>
      obtain ⟨rounds, rfl⟩ := Nat.exists_eq_succ_of_ne_zero (Nat.ne_of_gt (Nat.zero_lt_of_lt hrounds))
      have hnext := rbStep_along h hfuel halong
      have hbehind : along side t = (xs ++ [a]) ++ ys := by
        rw [halong, List.append_assoc, List.singleton_append]
      have hrest := ih hbehind (Nat.lt_of_succ_lt_succ hrounds)
      change (rbStep side fuel m a >>= fun next =>
        visitLoop side fuel rounds m next >>= fun visited => some (a :: visited)) = _
      rw [hnext, Option.bind_eq_bind, Option.bind_some, hrest]
      rfl

theorem printOrderedClasses_spec (h : m.Represents t) (hheight : t.height < fuel)
    (hrounds : t.inorder.length < rounds) : printOrderedClasses fuel rounds m = some t.inorder := by
  have halong : along .right t = [] ++ t.inorder := rfl
  rw [printOrderedClasses, rbFirst_spec h hheight]
  exact visitLoop_spec h hheight halong hrounds

/-- `rb_first` and `rb_next` visit every node once from left to right, and `rb_last` and
`rb_prev` from right to left. -/
theorem printOrderedClasses_inorder (h : m.Represents t) (hbalanced : t.Balanced)
    (hfuel : 2 * Nat.log 2 (t.inorder.length + 1) < fuel) (hrounds : t.inorder.length < rounds) :
    printOrderedClasses fuel rounds m = some t.inorder ∧
      visitBackwards fuel rounds m = some t.inorder.reverse := by
  have hheight := hbalanced.height_le.trans_lt hfuel
  constructor
  · exact printOrderedClasses_spec h hheight hrounds
  · rw [visitBackwards, rbLast, rbEnd_spec h hheight.le]
    have halong : along .left t = [] ++ t.inorder.reverse := rfl
    exact visitLoop_spec h hheight halong (along_perm.length_eq.trans_lt hrounds)

/-- A black node with a red one on either side. -/
def threeNodes : RbMem (Fin 3) where
  root := some 1
  node i := if i = 1 then ⟨none, false, some 2, some 0⟩ else ⟨some 1, true, none, none⟩

theorem represents_three : threeNodes.Represents
    (.node false (.node true .leaf 0 .leaf) 1 (.node true .leaf 2 .leaf)) :=
  ⟨rfl, ⟨rfl, ⟨rfl, trivial, trivial⟩, rfl, trivial, trivial⟩, by decide⟩

theorem balanced_three : (SearchTree.node false (.node true .leaf (0 : Fin 3) .leaf) 1
    (.node true .leaf 2 .leaf)).Balanced :=
  ⟨1, .black (.red .leaf .leaf) (.red .leaf .leaf)⟩

theorem printOrderedClasses_inorder_three : printOrderedClasses 5 4 threeNodes = some [0, 1, 2] ∧
    visitBackwards 5 4 threeNodes = some [2, 1, 0] :=
  printOrderedClasses_inorder represents_three balanced_three (by decide) (by decide)

omit [DecidableEq N] in
/-- A memory that agrees on the root and the nodes of a tree represents it as well. -/
theorem Represents.congr (h : m.Represents t) (hroot : m'.root = m.root)
    (hnode : ∀ x ∈ t.inorder, m'.node x = m.node x) : m'.Represents t :=
  ⟨hroot.trans h.root, h.holds.congr hnode, h.nodup⟩

variable (junk) in
theorem deleteLoop_spec (h : m.Represents t) (hbalanced : t.Balanced)
    (hfuel : 2 * Nat.log 2 (t.inorder.length + 1) < fuel) (hrounds : t.inorder.length < rounds) :
    ∃ m', deleteLoop junk fuel rounds m t.inorder.head? = some (m', t.inorder) ∧ m'.root = none ∧
      ∀ x, m'.node x = if x ∈ t.inorder then junk x else m.node x := by
  induction rounds generalizing m t with
  | zero => exact absurd hrounds (Nat.not_lt_zero _)
  | succ rounds ih =>
      have hheight := hbalanced.height_le.trans_lt hfuel
      cases hinorder : t.inorder with
      | nil =>
          have htop : t.top? = none := by
            cases htop : t.top? with
            | none => rfl
            | some a =>
                have ha := top?_mem htop
                rw [hinorder] at ha
                cases ha
          refine ⟨m, rfl, h.root.trans htop, fun x => ?_⟩
          rw [if_neg List.not_mem_nil]
      | cons a ys =>
          have ha : a ∈ t.inorder := by
            rw [hinorder]
            exact List.mem_cons_self
          have hnodup := h.nodup
          rw [hinorder, List.nodup_cons] at hnodup
          have halong : along .right t = [] ++ a :: ys := hinorder
          have hnext : rbNext fuel m a = some ys.head? := rbStep_along h hheight halong
          obtain ⟨m₁, t₁, herase, hremoves⟩ := rbErase_spec h hbalanced ha hheight
          have hinorder₁ : t₁.inorder = ys := by
            obtain ⟨xs', ys', hwith, hwithout⟩ := hremoves.inorder
            rw [hinorder, ← List.nil_append (a :: ys)] at hwith
            obtain ⟨rfl, -, rfl⟩ :=
              (List.append_cons_inj_of_notMem List.not_mem_nil hnodup.1).mp hwith
            exact hwithout
          have hfreed : (m₁.update a fun _ => junk a).Represents t₁ := by
            refine hremoves.represents.congr rfl fun x hx => node_update_of_ne ?_
            rw [hinorder₁] at hx
            exact ne_of_mem_of_not_mem hx hnodup.1
          have hlength : t₁.inorder.length + 1 = t.inorder.length := by
            rw [hinorder₁, hinorder, List.length_cons]
          have hlog : 2 * Nat.log 2 (t₁.inorder.length + 1) < fuel := by
            refine lt_of_le_of_lt (Nat.mul_le_mul_left 2 (Nat.log_mono_right ?_)) hfuel
            omega
          obtain ⟨m', hrun, hroot, hnode⟩ := ih hfreed hremoves.balanced hlog (by omega)
          rw [hinorder₁] at hrun hnode
          refine ⟨m', ?_, hroot, fun x => ?_⟩
          · change (rbNext fuel m a >>= fun next => rbErase fuel m a >>= fun m =>
              deleteLoop junk fuel rounds (m.update a fun _ => junk a) next >>= fun r =>
                some (r.1, a :: r.2)) = _
            rw [hnext, Option.bind_eq_bind, Option.bind_some, herase, Option.bind_eq_bind,
              Option.bind_some, hrun]
            rfl
          · rw [hnode x]
            by_cases hx : x ∈ ys
            · rw [if_pos hx, if_pos (List.mem_cons_of_mem _ hx)]
            · rw [if_neg hx]
              rcases eq_or_ne x a with rfl | hne
              · rw [node_update_self, if_pos List.mem_cons_self]
              · have hxt : x ∉ t.inorder := by
                  rw [hinorder, List.mem_cons, not_or]
                  exact ⟨hne, hx⟩
                rw [node_update_of_ne hne, hremoves.same x hxt, if_neg (hinorder ▸ hxt)]

/-- Forgetting the root after the loop changes nothing. -/
theorem strlistDelete_of_loop {next : Option N} {freed : List N}
    (hfirst : rbFirst fuel m = some next)
    (hrun : deleteLoop junk fuel rounds m next = some (m', freed)) (hroot : m'.root = none) :
    strlistDelete junk fuel rounds m = some (m', freed) := by
  have hempty : { m' with root := none } = m' := by rw [← hroot]
  change (rbFirst fuel m >>= fun next => deleteLoop junk fuel rounds m next >>= fun r =>
    some ({ r.1 with root := none }, r.2)) = _
  rw [hfirst, Option.bind_eq_bind, Option.bind_some, hrun]
  change some ({ m' with root := none }, freed) = _
  rw [hempty]

/-- The loop frees every node once from left to right, whatever freed memory contains, leaves an
empty tree and changes no other node. -/
theorem structuresDelete_frees (h : m.Represents t) (hbalanced : t.Balanced)
    (hfuel : 2 * Nat.log 2 (t.inorder.length + 1) < fuel) (hrounds : t.inorder.length < rounds) :
    ∃ m', structuresDelete junk fuel rounds m = some (m', t.inorder) ∧
      strlistDelete junk fuel rounds m = some (m', t.inorder) ∧ m'.root = none ∧
        ∀ x, m'.node x = if x ∈ t.inorder then junk x else m.node x := by
  have hheight := hbalanced.height_le.trans_lt hfuel
  obtain ⟨m', hrun, hroot, hnode⟩ := deleteLoop_spec junk h hbalanced hfuel hrounds
  have hfirst := rbFirst_spec h hheight
  refine ⟨m', ?_, strlistDelete_of_loop hfirst hrun hroot, hroot, hnode⟩
  rw [structuresDelete, hfirst]
  exact hrun

/-- Three freed nodes, each with its colour changed and no link left. -/
theorem structuresDelete_frees_three : ∃ m',
    structuresDelete (fun _ => ⟨none, true, none, none⟩) 5 4 threeNodes = some (m', [0, 1, 2]) ∧
      strlistDelete (fun _ => ⟨none, true, none, none⟩) 5 4 threeNodes = some (m', [0, 1, 2]) ∧
        m'.root = none ∧ ∀ x, m'.node x =
          if x ∈ [0, 1, 2] then ⟨none, true, none, none⟩ else threeNodes.node x :=
  structuresDelete_frees represents_three balanced_three (by decide) (by decide)

end Loops

end RbMem

end Pahole

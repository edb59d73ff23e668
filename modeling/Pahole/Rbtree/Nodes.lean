import Mathlib.Logic.Function.Basic
import Pahole.Support.RedBlack

/-!
# The nodes of a red-black tree

The nodes of `rbtree.c` point to each other, up and down.  A memory represents a tree when the
nodes say what the tree says, and going wherever there is no node is a failure.
-/

namespace Pahole

open SearchTree

/-- `struct rb_node`, with `rb_parent_color` as the parent and the colour. -/
structure RbNode (N : Type*) where
  parent : Option N
  red : Bool
  right : Option N
  left : Option N

namespace RbNode

variable {N : Type*} {side : Side} {parent near far p : Option N} {red : Bool}

def child (side : Side) (n : RbNode N) : Option N :=
  match side with
  | .left => n.left
  | .right => n.right

def setChild (side : Side) (n : RbNode N) (p : Option N) : RbNode N :=
  match side with
  | .left => { n with left := p }
  | .right => { n with right := p }

/-- A node that points to a node on the side and to one on the other. -/
def towards (side : Side) (parent : Option N) (red : Bool) (near far : Option N) : RbNode N :=
  match side with
  | .left => ⟨parent, red, far, near⟩
  | .right => ⟨parent, red, near, far⟩

@[simp]
theorem parent_towards : (towards side parent red near far).parent = parent := by
  cases side <;> rfl

@[simp]
theorem red_towards : (towards side parent red near far).red = red := by
  cases side <;> rfl

@[simp]
theorem child_towards : (towards side parent red near far).child side = near := by
  cases side <;> rfl

@[simp]
theorem child_other_towards : (towards side parent red near far).child side.other = far := by
  cases side <;> rfl

@[simp]
theorem setChild_towards :
    (towards side parent red near far).setChild side p = towards side parent red p far := by
  cases side <;> rfl

@[simp]
theorem setChild_other_towards :
    (towards side parent red near far).setChild side.other p = towards side parent red near p := by
  cases side <;> rfl

theorem towards_other :
    towards side.other parent red near far = towards side parent red far near := by
  cases side <;> rfl

@[simp]
theorem towards_withParent :
    { towards side parent red near far with parent := p } = towards side p red near far := by
  cases side <;> rfl

@[simp]
theorem towards_withRed {red' : Bool} :
    { towards side parent red near far with red := red' } = towards side parent red' near far := by
  cases side <;> rfl

end RbNode

/-- `struct rb_root`, and all the nodes. -/
structure RbMem (N : Type*) where
  root : Option N
  node : N → RbNode N

namespace RbMem

variable {N : Type*} [DecidableEq N]

/-! ## Access to nodes -/

def update (m : RbMem N) (a : N) (f : RbNode N → RbNode N) : RbMem N :=
  { m with node := Function.update m.node a (f (m.node a)) }

/-- `rb_set_parent` -/
def setParent (m : RbMem N) (rb : N) (p : Option N) : RbMem N :=
  m.update rb fun n => { n with parent := p }

/-- `rb_set_red`, `rb_set_black` and `rb_set_color` -/
def setRed (m : RbMem N) (rb : N) (red : Bool) : RbMem N :=
  m.update rb fun n => { n with red := red }

omit [DecidableEq N] in
/-- `rb_left` or `rb_right` -/
def child (side : Side) (m : RbMem N) (rb : N) : Option N := (m.node rb).child side

def setChild (side : Side) (m : RbMem N) (rb : N) (p : Option N) : RbMem N :=
  m.update rb (RbNode.setChild side · p)

/-- `rb_set_parent`, if there is a node. -/
def setParentOf (m : RbMem N) (rb : Option N) (p : Option N) : RbMem N :=
  match rb with
  | some rb => m.setParent rb p
  | none => m

/-- The pointer of the parent, or of the root, to a node is set, with the side of it that is
looked at first. -/
def relink (side : Side) (m : RbMem N) (parent : Option N) (node : N) (new : Option N) : RbMem N :=
  match parent with
  | some parent =>
      if m.child side parent = some node then m.setChild side parent new
      else m.setChild side.other parent new
  | none => { m with root := new }

section Access

variable {m : RbMem N} {a x : N} {f : RbNode N → RbNode N} {p parent new : Option N} {side : Side}
  {red : Bool}

theorem node_update_self : (m.update a f).node a = f (m.node a) :=
  Function.update_self _ _ _

theorem node_update_of_ne (h : x ≠ a) : (m.update a f).node x = m.node x :=
  Function.update_of_ne h _ _

@[simp]
theorem node_setParent_self : (m.setParent a p).node a = { m.node a with parent := p } :=
  node_update_self

theorem node_setParent_of_ne (h : x ≠ a) : (m.setParent a p).node x = m.node x :=
  node_update_of_ne h

@[simp]
theorem node_setRed_self : (m.setRed a red).node a = { m.node a with red := red } :=
  node_update_self

theorem node_setRed_of_ne (h : x ≠ a) : (m.setRed a red).node x = m.node x :=
  node_update_of_ne h

@[simp]
theorem node_setChild_self : (m.setChild side a p).node a = (m.node a).setChild side p :=
  node_update_self

theorem node_setChild_of_ne (h : x ≠ a) : (m.setChild side a p).node x = m.node x :=
  node_update_of_ne h

theorem node_setParentOf (h : p ≠ some x) : (m.setParentOf p parent).node x = m.node x := by
  cases p with
  | none => rfl
  | some c => exact node_setParent_of_ne fun heq : x = c => h (congrArg some heq.symm)

theorem root_setParentOf : (m.setParentOf p parent).root = m.root := by
  cases p <;> rfl

theorem node_relink (h : parent ≠ some x) : (m.relink side parent a new).node x = m.node x := by
  cases parent with
  | none => rfl
  | some c =>
      have hne : x ≠ c := fun heq => h (congrArg some heq.symm)
      rw [relink]
      split
      · exact node_setChild_of_ne hne
      · exact node_setChild_of_ne hne

end Access

/-! ## Trees that are represented -/

/-- Every node of the subtree has the parent, the colour and the two children that it has in the
tree. -/
def Holds (m : RbMem N) (parent : Option N) : SearchTree N → Prop
  | .leaf => True
  | .node red left a right => m.node a = ⟨parent, red, right.top?, left.top?⟩ ∧
      m.Holds (some a) left ∧ m.Holds (some a) right

/-- The node above a hole. -/
def parentOf : List (Frame N) → Option N
  | [] => none
  | f :: _ => some f.value

/-- The values of a tree with a hole. -/
def around (path : List (Frame N)) : List N := before path ++ after path

/-- Every node on the path and beside it has the parent, the colour and the children that it has
in the tree, where `p` is in the hole. -/
def HoldsAround (m : RbMem N) : List (Frame N) → Option N → Prop
  | [], p => m.root = p
  | f :: path, p => m.node f.value = .towards f.side (parentOf path) f.red p f.sibling.top? ∧
      m.Holds (some f.value) f.sibling ∧ m.HoldsAround path (some f.value)

/-- The root and the nodes in memory are those of the tree, which has no node twice. -/
structure Represents (m : RbMem N) (t : SearchTree N) : Prop where
  root : m.root = t.top?
  holds : m.Holds none t
  nodup : t.inorder.Nodup

section Holds

omit [DecidableEq N]

variable {m m' : RbMem N} {parent parent' p : Option N} {t : SearchTree N} {path : List (Frame N)}
  {f : Frame N} {side : Side} {red : Bool} {near far : SearchTree N} {a x : N}

theorem holds_join : m.Holds parent (join side red near a far) ↔
    m.node a = .towards side parent red near.top? far.top? ∧ m.Holds (some a) near ∧
      m.Holds (some a) far := by
  cases side with
  | left => exact Iff.rfl
  | right => exact and_congr_right fun _ => and_comm

theorem Holds.congr (h : m.Holds parent t) (heq : ∀ a ∈ t.inorder, m'.node a = m.node a) :
    m'.Holds parent t := by
  induction t generalizing parent with
  | leaf => trivial
  | node red left a right ihl ihr =>
      obtain ⟨hcell, hleft, hright⟩ := h
      obtain ⟨heqLeft, heqRight⟩ := List.forall_mem_append.mp heq
      obtain ⟨heqCell, heqRight⟩ := List.forall_mem_cons.mp heqRight
      exact ⟨heqCell.trans hcell, ihl hleft heqLeft, ihr hright heqRight⟩

theorem around_cons_perm :
    (around (f :: path)).Perm (f.value :: (f.sibling.inorder ++ around path)) := by
  obtain ⟨side, red, value, sibling⟩ := f
  unfold around
  cases side with
  | left =>
      refine List.perm_middle.trans (.cons _ ?_)
      rw [← List.append_assoc, ← List.append_assoc]
      exact List.perm_append_comm.append_right _
  | right =>
      change ((before path ++ (sibling.inorder ++ [value])) ++ after path).Perm _
      rw [← List.append_assoc, List.append_assoc, List.singleton_append]
      refine List.perm_middle.trans (.cons _ ?_)
      rw [← List.append_assoc]
      exact List.perm_append_comm.append_right _

theorem mem_around_cons : x ∈ around (f :: path) ↔
    x = f.value ∨ x ∈ f.sibling.inorder ∨ x ∈ around path := by
  rw [around_cons_perm.mem_iff, List.mem_cons, List.mem_append]

theorem mem_around_of_parentOf (h : parentOf path = some x) : x ∈ around path := by
  cases path with
  | nil => cases h
  | cons f path =>
      obtain rfl := Option.some.inj h
      exact mem_around_cons.mpr (Or.inl rfl)

theorem inorder_plug_perm : (plug path t).inorder.Perm (t.inorder ++ around path) := by
  rw [inorder_plug, around, ← List.append_assoc, ← List.append_assoc]
  exact List.perm_append_comm.append_right _

theorem HoldsAround.congr (h : m.HoldsAround path p)
    (heq : ∀ a ∈ around path, m'.node a = m.node a) (hroot : m'.root = m.root) :
    m'.HoldsAround path p := by
  induction path generalizing p with
  | nil => exact hroot.trans h
  | cons f path ih =>
      obtain ⟨hcell, hsibling, haround⟩ := h
      refine ⟨(heq _ (mem_around_cons.mpr (Or.inl rfl))).trans hcell, ?_, ih haround ?_⟩
      · exact hsibling.congr fun a ha => heq a (mem_around_cons.mpr (Or.inr (Or.inl ha)))
      · exact fun a ha => heq a (mem_around_cons.mpr (Or.inr (Or.inr ha)))

/-- A tree is held as a subtree and what is around it. -/
theorem holds_plug : (m.root = (plug path t).top? ∧ m.Holds none (plug path t)) ↔
    m.HoldsAround path t.top? ∧ m.Holds (parentOf path) t := by
  induction path generalizing t with
  | nil => exact Iff.rfl
  | cons f path ih =>
      rw [plug_cons, ih, Frame.fill, top?_join, holds_join, HoldsAround]
      tauto

end Holds

/-! ## Changing nodes -/

section Changes

variable {m m' : RbMem N} {parent parent' p new : Option N} {t t' : SearchTree N}
  {path : List (Frame N)} {side side' : Side} {red red' : Bool} {near far : SearchTree N} {a x : N}

/-- Setting the parent of its topmost node gives a subtree another parent. -/
theorem Holds.reparent (h : m.Holds parent t) (hnodup : t.inorder.Nodup) :
    (m.setParentOf t.top? parent').Holds parent' t := by
  cases t with
  | leaf => trivial
  | node red left a right =>
      obtain ⟨hcell, hleft, hright⟩ := h
      obtain ⟨-, hrightNodup, hdisjoint⟩ := List.nodup_append'.mp hnodup
      have hnotRight := (List.nodup_cons.mp hrightNodup).1
      have hnotLeft : a ∉ left.inorder := fun ha => hdisjoint ha List.mem_cons_self
      rw [top?, setParentOf]
      refine ⟨?_, hleft.congr fun x hx => ?_, hright.congr fun x hx => ?_⟩
      · rw [node_setParent_self, hcell]
      · exact node_setParent_of_ne (ne_of_mem_of_not_mem hx hnotLeft)
      · exact node_setParent_of_ne (ne_of_mem_of_not_mem hx hnotRight)

/-- Setting the child pointer at a hole puts another node there. -/
theorem HoldsAround.setChild {f : Frame N} (h : m.HoldsAround (f :: path) p)
    (hnodup : (around (f :: path)).Nodup) :
    (m.setChild f.side f.value new).HoldsAround (f :: path) new := by
  obtain ⟨hcell, hsibling, haround⟩ := h
  rw [around_cons_perm.nodup_iff, List.nodup_cons, List.mem_append, not_or] at hnodup
  obtain ⟨⟨hnotSibling, hnotAround⟩, -⟩ := hnodup
  refine ⟨?_, hsibling.congr fun x hx => ?_, haround.congr (fun x hx => ?_) rfl⟩
  · rw [node_setChild_self, hcell, RbNode.setChild_towards]
  · exact node_setChild_of_ne (ne_of_mem_of_not_mem hx hnotSibling)
  · exact node_setChild_of_ne (ne_of_mem_of_not_mem hx hnotAround)

/-- Relinking the parent replaces the contents of the hole. -/
theorem HoldsAround.relink (h : m.HoldsAround path (some a)) (ha : a ∉ around path)
    (hnodup : (around path).Nodup) :
    (m.relink side (parentOf path) a new).HoldsAround path new := by
  cases path with
  | nil => rfl
  | cons f path =>
      have hnotSibling : f.sibling.top? ≠ some a := fun htop =>
        ha (mem_around_cons.mpr (Or.inr (Or.inl (top?_mem htop))))
      have hchanged :
          m.relink side (parentOf (f :: path)) a new = m.setChild f.side f.value new := by
        rw [parentOf, RbMem.relink, child, h.1]
        rcases eq_or_ne side f.side with rfl | hne
        · rw [RbNode.child_towards, if_pos rfl]
        · have hside : f.side = side.other := by
            revert hne
            cases side <;> cases f.side <;> simp
          rw [hside, RbNode.towards_other, RbNode.child_towards, if_neg hnotSibling]
      rw [hchanged]
      exact h.setChild hnodup

omit [DecidableEq N] in
theorem represents_plug : m.Represents (plug path t) ↔
    (m.HoldsAround path t.top? ∧ m.Holds (parentOf path) t) ∧ (plug path t).inorder.Nodup :=
  ⟨fun h => ⟨holds_plug.mp ⟨h.root, h.holds⟩, h.nodup⟩, fun h =>
    ⟨(holds_plug.mpr h.1).1, (holds_plug.mpr h.1).2, h.2⟩⟩

omit [DecidableEq N] in
theorem nodup_plug : (plug path t).inorder.Nodup ↔
    t.inorder.Nodup ∧ (around path).Nodup ∧ ∀ x ∈ t.inorder, x ∉ around path := by
  rw [inorder_plug_perm.nodup_iff, List.nodup_append']
  exact Iff.rfl

omit [DecidableEq N] in
theorem nodup_join : (join side red near a far).inorder.Nodup ↔
    (near.inorder.Nodup ∧ a ∉ near.inorder) ∧ (far.inorder.Nodup ∧ a ∉ far.inorder) ∧
      ∀ x ∈ near.inorder, x ∉ far.inorder := by
  cases side with
  | left =>
      rw [join, inorder, List.nodup_append', List.nodup_cons, List.disjoint_cons_right]
      unfold List.Disjoint
      tauto
  | right =>
      rw [join, inorder, List.nodup_append', List.nodup_cons, List.disjoint_cons_right,
        List.disjoint_comm]
      unfold List.Disjoint
      tauto

/-- The nodes outside `t` are the same in both memories. -/
def SameOutside (m m' : RbMem N) (t : SearchTree N) : Prop :=
  ∀ x, x ∉ t.inorder → m'.node x = m.node x

omit [DecidableEq N] in
/-- The cell of a node has its parent, its colour and the topmost nodes of its subtrees. -/
theorem Represents.cell (h : m.Represents (plug path (join side red near a far))) :
    m.node a = .towards side (parentOf path) red near.top? far.top? :=
  (holds_join.mp (represents_plug.mp h).1.2).1

omit [DecidableEq N] in
/-- The cell of the node above a subtree has the topmost nodes of the subtree and its sibling.
-/
theorem Represents.cell_parent {f : Frame N} (h : m.Represents (plug (f :: path) t)) :
    m.node f.value = .towards f.side (parentOf path) f.red t.top? f.sibling.top? :=
  (represents_plug.mp h).1.1.1

/-- `m'` has a tree of the same nodes in the same order, and the nodes outside are unchanged. -/
structure Reshapes (m : RbMem N) (t : SearchTree N) (m' : RbMem N) (t' : SearchTree N) : Prop where
  represents : m'.Represents t'
  inorder : t'.inorder = t.inorder
  same : SameOutside m m' t

omit [DecidableEq N] in
theorem Reshapes.refl (h : m.Represents t) : Reshapes m t m t :=
  ⟨h, rfl, fun _ _ => rfl⟩

omit [DecidableEq N] in
theorem Reshapes.trans {m'' : RbMem N} {t'' : SearchTree N} (h : Reshapes m t m' t')
    (h' : Reshapes m' t' m'' t'') : Reshapes m t m'' t'' := by
  refine ⟨h'.represents, h'.inorder.trans h.inorder, fun x hx => ?_⟩
  rw [h'.same x (by rwa [h.inorder]), h.same x hx]

/-- Setting the colour of a node changes its colour in the tree. -/
theorem Represents.setRed (red' : Bool) (h : m.Represents (plug path (join side red near a far))) :
    Reshapes m (plug path (join side red near a far)) (m.setRed a red')
      (plug path (join side red' near a far)) := by
  have hsame : (plug path (join side red' near a far)).inorder =
      (plug path (join side red near a far)).inorder :=
    inorder_plug_congr (by cases side <;> rfl)
  refine ⟨represents_plug.mpr ?_, hsame, fun x hx => ?_⟩
  · obtain ⟨⟨haround, hholds⟩, hnodup⟩ := represents_plug.mp h
    rw [holds_join] at hholds
    obtain ⟨hcell, hnear, hfar⟩ := hholds
    obtain ⟨htree, -, hseparate⟩ := nodup_plug.mp hnodup
    obtain ⟨⟨-, hnotNear⟩, ⟨-, hnotFar⟩, -⟩ := nodup_join.mp htree
    have hnotAround := hseparate a (mem_inorder_join.mpr (Or.inl rfl))
    rw [top?_join] at haround ⊢
    refine ⟨⟨haround.congr (fun x hx => ?_) rfl, holds_join.mpr ⟨?_, hnear.congr fun x hx => ?_,
      hfar.congr fun x hx => ?_⟩⟩, hsame ▸ hnodup⟩
    · exact node_setRed_of_ne (ne_of_mem_of_not_mem hx hnotAround)
    · rw [node_setRed_self, hcell, RbNode.towards_withRed]
    · exact node_setRed_of_ne (ne_of_mem_of_not_mem hx hnotNear)
    · exact node_setRed_of_ne (ne_of_mem_of_not_mem hx hnotFar)
  · refine node_setRed_of_ne fun heq => hx ?_
    rw [heq, inorder_plug_perm.mem_iff]
    exact List.mem_append_left _ (mem_inorder_join.mpr (Or.inl rfl))

omit [DecidableEq N] in
/-- A context for the sibling of `t` gives the same tree as the context of its parent. -/
theorem plug_sibling {value : N} {sibling : SearchTree N} :
    plug (⟨side.other, red, value, t⟩ :: path) sibling =
      plug path (join side red t value sibling) := by
  rw [plug_cons, Frame.fill, join_other]

end Changes

end RbMem

end Pahole

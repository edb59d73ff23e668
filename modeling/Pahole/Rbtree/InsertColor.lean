import Pahole.Rbtree.Nodes

/-!
# Insertion into a red-black tree

A node that has been linked is red.  `rb_insert_color` goes up from it, as long as it has a red
node above it, and turns the tree about.
-/

namespace Pahole

open SearchTree

namespace RbMem

variable {N : Type*} [DecidableEq N]

/-! ## Rotations -/

/-- `__rb_rotate_left`, and `__rb_rotate_right` with the sides changed. -/
def rotate (side : Side) (m : RbMem N) (node : N) : Option (RbMem N) := do
  let right ← m.child side.other node
  let parent := (m.node node).parent
  let m := m.setChild side.other node (m.child side right)
  let m := m.setParentOf (m.child side right) (some node)
  let m := m.setChild side right (some node)
  let m := m.setParent right parent
  let m := m.relink side parent node (some right)
  pure (m.setParent node (some right))

/-- `__rb_rotate_left` -/
def rbRotateLeft (m : RbMem N) (node : N) : Option (RbMem N) := rotate .left m node

/-- `__rb_rotate_right` -/
def rbRotateRight (m : RbMem N) (node : N) : Option (RbMem N) := rotate .right m node

section Rotate

variable {m : RbMem N} {path : List (Frame N)} {side : Side} {red red' : Bool}
  {t u v : SearchTree N} {a b : N}

omit [DecidableEq N] in
theorem inorder_rotate : (join side red' (join side red t a u) b v).inorder =
    (join side red t a (join side red' u b v)).inorder := by
  cases side with
  | left => rw [join, join, join, join, inorder, inorder, inorder, inorder, List.append_assoc,
      List.cons_append]
  | right => rw [join, join, join, join, inorder, inorder, inorder, inorder, List.append_assoc,
      List.cons_append]

/-- A rotation exchanges a node and its child on a side. -/
theorem Represents.rotate (h : m.Represents (plug path (join side red t a (join side red' u b v)))) :
    ∃ m', RbMem.rotate side m a = some m' ∧
      Reshapes m (plug path (join side red t a (join side red' u b v))) m'
        (plug path (join side red' (join side red t a u) b v)) := by
  have hcellA := h.cell
  rw [represents_plug] at h
  obtain ⟨⟨haround, hholds⟩, hnodup⟩ := h
  rw [top?_join] at hcellA haround
  rw [holds_join, holds_join] at hholds
  obtain ⟨-, ht, hcellB, hu, hv⟩ := hholds
  obtain ⟨htree, hpathNodup, hseparate⟩ := nodup_plug.mp hnodup
  obtain ⟨⟨-, hat⟩, ⟨hchild, hab⟩, htb⟩ := nodup_join.mp htree
  obtain ⟨⟨huNodup, hbu⟩, ⟨-, hbv⟩, huv⟩ := nodup_join.mp hchild
  simp only [mem_inorder_join, not_or] at hab htb hseparate
  obtain ⟨hne, hau, hav⟩ := hab
  have haAround : a ∉ around path := hseparate a (Or.inl rfl)
  have hbAround : b ∉ around path := hseparate b (Or.inr (Or.inr (Or.inl rfl)))
  have hparent : ∀ x, x ∉ around path → parentOf path ≠ some x :=
    fun x hx heq => hx (mem_around_of_parentOf heq)
  have htopU : ∀ x, x ∉ u.inorder → u.top? ≠ some x := fun x hx heq => hx (top?_mem heq)
  obtain ⟨m₁, hm₁⟩ : ∃ m₁, m₁ = m.setChild side.other a u.top? := ⟨_, rfl⟩
  obtain ⟨m₂, hm₂⟩ : ∃ m₂, m₂ = m₁.setParentOf u.top? (some a) := ⟨_, rfl⟩
  obtain ⟨m₃, hm₃⟩ : ∃ m₃, m₃ = m₂.setChild side b (some a) := ⟨_, rfl⟩
  obtain ⟨m₄, hm₄⟩ : ∃ m₄, m₄ = m₃.setParent b (parentOf path) := ⟨_, rfl⟩
  obtain ⟨m₅, hm₅⟩ : ∃ m₅, m₅ = m₄.relink side (parentOf path) a (some b) := ⟨_, rfl⟩
  obtain ⟨m₆, hm₆⟩ : ∃ m₆, m₆ = m₅.setParent a (some b) := ⟨_, rfl⟩
  have hrun : RbMem.rotate side m a = some m₆ := by
    have hright : m.child side.other a = some b := by
      rw [child, hcellA, RbNode.child_other_towards]
    have hleft : m.child side b = u.top? := by rw [child, hcellB, RbNode.child_towards]
    have hleft' : m₁.child side b = u.top? := by
      rw [hm₁, child, node_setChild_of_ne (Ne.symm hne), hcellB, RbNode.child_towards]
    have hparentA : (m.node a).parent = parentOf path := by rw [hcellA, RbNode.parent_towards]
    rw [RbMem.rotate, hright, hparentA]
    dsimp only [Option.bind_eq_bind, Option.bind_some, Option.pure_def]
    rw [hleft, ← hm₁, hleft', ← hm₂, ← hm₃, ← hm₄, ← hm₅, ← hm₆]
  have hcell₂A : m₂.node a = .towards side (parentOf path) red t.top? u.top? := by
    rw [hm₂, node_setParentOf (htopU a hau), hm₁, node_setChild_self, hcellA,
      RbNode.setChild_other_towards]
  have hcell₂B : m₂.node b = .towards side (some a) red' u.top? v.top? := by
    rw [hm₂, node_setParentOf (htopU b hbu), hm₁, node_setChild_of_ne (Ne.symm hne), hcellB]
  have hcellA' : m₆.node a = .towards side (some b) red t.top? u.top? := by
    rw [hm₆, node_setParent_self, hm₅, node_relink (hparent a haAround), hm₄,
      node_setParent_of_ne hne, hm₃, node_setChild_of_ne hne, hcell₂A, RbNode.towards_withParent]
  have hcellB' : m₆.node b = .towards side (parentOf path) red' (some a) v.top? := by
    rw [hm₆, node_setParent_of_ne (Ne.symm hne), hm₅, node_relink (hparent b hbAround), hm₄,
      node_setParent_self, hm₃, node_setChild_self, hcell₂B, RbNode.setChild_towards,
      RbNode.towards_withParent]
  have hsame₂ : ∀ x, x ≠ a → x ∉ u.inorder → m₂.node x = m.node x := fun x hxa hxu => by
    rw [hm₂, node_setParentOf (htopU x hxu), hm₁, node_setChild_of_ne hxa]
  have hsame₄ : ∀ x, x ≠ b → m₄.node x = m₂.node x := fun x hxb => by
    rw [hm₄, node_setParent_of_ne hxb, hm₃, node_setChild_of_ne hxb]
  have hsame₆ : ∀ x, x ≠ a → x ≠ b → x ∉ around path → m₆.node x = m₂.node x :=
    fun x hxa hxb hx => by
      rw [hm₆, node_setParent_of_ne hxa, hm₅, node_relink (hparent x hx), hsame₄ x hxb]
  have haround₄ : m₄.HoldsAround path (some a) := by
    refine haround.congr (fun x hx => ?_) ?_
    · rw [hsame₄ x (ne_of_mem_of_not_mem hx hbAround), hsame₂ x (ne_of_mem_of_not_mem hx haAround)]
      exact fun hxu => hseparate x (Or.inr (Or.inr (Or.inr (Or.inl hxu)))) hx
    · rw [hm₄, hm₃, hm₂]
      exact root_setParentOf.trans (by rw [hm₁]; rfl)
  have haround₆ : m₆.HoldsAround path (some b) := by
    have hlinked : m₅.HoldsAround path (some b) := by
      rw [hm₅]
      exact haround₄.relink haAround hpathNodup
    refine hlinked.congr (fun x hx => ?_) (by rw [hm₆]; rfl)
    rw [hm₆, node_setParent_of_ne (ne_of_mem_of_not_mem hx haAround)]
  have hu₂ : m₂.Holds (some a) u := by
    rw [hm₂]
    refine Holds.reparent (hu.congr fun x hx => ?_) huNodup
    rw [hm₁, node_setChild_of_ne (ne_of_mem_of_not_mem hx hau)]
  refine ⟨m₆, hrun, represents_plug.mpr ⟨⟨?_, ?_⟩, ?_⟩, inorder_plug_congr inorder_rotate,
    fun x hx => ?_⟩
  · rw [top?_join]
    exact haround₆
  · rw [holds_join, holds_join, top?_join]
    refine ⟨hcellB', ⟨hcellA', ht.congr fun x hx => ?_, hu₂.congr fun x hx => ?_⟩,
      hv.congr fun x hx => ?_⟩
    · have hxt := htb x hx
      rw [hsame₆ x (ne_of_mem_of_not_mem hx hat) hxt.1 (hseparate x (Or.inr (Or.inl hx))),
        hsame₂ x (ne_of_mem_of_not_mem hx hat) hxt.2.1]
    · exact hsame₆ x (ne_of_mem_of_not_mem hx hau) (ne_of_mem_of_not_mem hx hbu)
        (hseparate x (Or.inr (Or.inr (Or.inr (Or.inl hx)))))
    · have hxu : x ∉ u.inorder := fun hxu => huv x hxu hx
      rw [hsame₆ x (ne_of_mem_of_not_mem hx hav) (ne_of_mem_of_not_mem hx hbv)
        (hseparate x (Or.inr (Or.inr (Or.inr (Or.inr hx))))),
        hsame₂ x (ne_of_mem_of_not_mem hx hav) hxu]
  · rwa [inorder_plug_congr inorder_rotate]
  · rw [inorder_plug_perm.mem_iff, List.mem_append, mem_inorder_join, mem_inorder_join] at hx
    simp only [not_or] at hx
    rw [hsame₆ x hx.1.1 hx.1.2.2.1 hx.2, hsame₂ x hx.1.1 hx.1.2.2.2.1]

end Rotate

/-! ## `rb_insert_color` -/

/-- The side of a node that a child is on. -/
def sideOf (m : RbMem N) (parent : N) (node : Option N) : Side :=
  if m.child .left parent = node then .left else .right

/-- A node on the inner side of its parent changes places with it. -/
def straighten (side : Side) (m : RbMem N) (node parent : N) : Option (RbMem N × N × N) :=
  if m.child side.other parent = some node then do
    let m ← m.rotate side parent
    pure (m, parent, node)
  else some (m, node, parent)

/-- The rotations of `rb_insert_color` where the uncle is not red, and the node that the loop
goes on from. -/
def insertColorTurn (side : Side) (m : RbMem N) (node parent gparent : N) :
    Option (RbMem N × N) := do
  let (m, node, parent) ← m.straighten side node parent
  let m := (m.setRed parent false).setRed gparent true
  let m ← m.rotate side.other gparent
  pure (m, node)

/-- The `while` of `rb_insert_color`, whose two branches differ by the sides. -/
def insertColorLoop : ℕ → RbMem N → N → Option (RbMem N)
  | 0, _, _ => none
  | fuel + 1, m, node =>
      match (m.node node).parent with
      | none => some m
      | some parent =>
          if (m.node parent).red then do
            let gparent ← (m.node parent).parent
            let side := m.sideOf gparent (some parent)
            match (m.child side.other gparent).filter fun uncle => (m.node uncle).red with
            | some uncle =>
                let m := ((m.setRed uncle false).setRed parent false).setRed gparent true
                insertColorLoop fuel m gparent
            | none => do
                let (m, node) ← m.insertColorTurn side node parent gparent
                insertColorLoop fuel m node
          else some m

/-- `rb_insert_color` -/
def rbInsertColor (fuel : ℕ) (m : RbMem N) (node : N) : Option (RbMem N) := do
  let m ← m.insertColorLoop fuel node
  let root ← m.root
  pure (m.setRed root false)

section InsertColor

variable {m : RbMem N} {path : List (Frame N)} {side : Side} {f : Frame N} {fuel n : ℕ}
  {t near far : SearchTree N} {a : N} {c : Bool}

theorem Represents.sideOf_eq (h : m.Represents (plug (f :: path) t))
    (hne : f.sibling.top? ≠ t.top?) :
    m.sideOf f.value t.top? = f.side := by
  have hcell := h.cell_parent
  rw [sideOf, child, hcell]
  cases hside : f.side with
  | left => rw [RbNode.child_towards, if_pos rfl]
  | right =>
      have hchild : (RbNode.towards .right (parentOf path) f.red t.top? f.sibling.top?).child .left =
        f.sibling.top? := rfl
      rw [hchild, if_neg hne]

omit [DecidableEq N] in
/-- The sibling of a subtree has another topmost node. -/
theorem Represents.sibling_ne (h : m.Represents (plug (f :: path) t)) (ht : t.top? = some a) :
    f.sibling.top? ≠ t.top? := by
  intro heq
  obtain ⟨-, -, hseparate⟩ := nodup_plug.mp h.nodup
  refine hseparate a (top?_mem ht) (mem_around_cons.mpr (Or.inr (Or.inl (top?_mem ?_))))
  rw [heq, ht]

/-- `rb_insert_color` ends below a black node. -/
theorem insertColorLoop_of_black (hparent : ∀ p ∈ (m.node a).parent, (m.node p).red = false) :
    m.insertColorLoop (fuel + 1) a = some m := by
  rw [insertColorLoop]
  cases hp : (m.node a).parent with
  | none => rfl
  | some p =>
      dsimp only
      rw [hparent p hp, if_neg Bool.false_ne_true]

omit [DecidableEq N] in
theorem Represents.parent_eq (h : m.Represents (plug path t)) (ht : t.top? = some a) :
    (m.node a).parent = parentOf path := by
  obtain ⟨red, near, far, rfl⟩ := exists_join .left ht
  rw [h.cell, RbNode.parent_towards]

omit [DecidableEq N] in
theorem exists_join_red (side : Side) (h : RedBlack t true n) : ∃ near a far,
    t = join side true near a far ∧ RedBlack near false n ∧ RedBlack far false n := by
  cases h with
  | @red left right a n hleft hright =>
      cases side with
      | left => exact ⟨left, a, right, rfl, hleft, hright⟩
      | right => exact ⟨right, a, left, rfl, hright, hleft⟩

/-- After the case of an inner child, the node and its parent are children on one side. -/
theorem straighten_spec {fs : Side} {p g : N} {sib uncle : SearchTree N}
    (h : m.Represents (plug path (join side false (join fs true t p sib) g uncle)))
    (ht : RedBlack t true n) (htop : t.top? = some a) (hsib : RedBlack sib false n) :
    ∃ m' a' p' t' sib', m.straighten side a p = some (m', a', p') ∧
      Reshapes m (plug path (join side false (join fs true t p sib) g uncle)) m'
        (plug path (join side false (join side true t' p' sib') g uncle)) ∧
      t'.top? = some a' ∧ RedBlack t' true n ∧ RedBlack sib' false n := by
  have hbelow : m.Represents (plug (⟨fs, true, p, sib⟩ :: ⟨side, false, g, uncle⟩ :: path) t) := h
  have hsibling : sib.top? ≠ some a := by
    rw [← htop]
    exact hbelow.sibling_ne htop
  have hcell : m.node p = .towards fs (some g) true t.top? sib.top? := hbelow.cell_parent
  rcases eq_or_ne fs side with rfl | hne
  · refine ⟨m, a, p, t, sib, if_neg ?_, .refl h, htop, ht, hsib⟩
    rw [child, hcell, RbNode.child_other_towards]
    exact hsibling
  · have hfs : fs = side.other := by
      revert hne
      cases side <;> cases fs <;> simp
    subst hfs
    obtain ⟨near, a', far, rfl, hnear, hfar⟩ := exists_join_red side ht
    rw [top?_join] at htop
    obtain rfl := Option.some.inj htop
    rw [join_other] at h ⊢
    rw [RbNode.towards_other] at hcell
    have hparent : m.Represents (plug (⟨side, false, g, uncle⟩ :: path)
        (join side true sib p (join side true near a' far))) := h
    obtain ⟨m', hrotate, hreshapes⟩ := hparent.rotate
    refine ⟨m', p, a', join side true sib p near, far, ?_, hreshapes, top?_join, ?_, hfar⟩
    · rw [straighten, if_pos, hrotate]
      · rfl
      · rw [child, hcell, RbNode.child_other_towards, top?_join]
    · exact hsib.join_red hnear

/-- Where the uncle is black, one or two rotations leave a balanced tree with a black root. -/
theorem insertColorTurn_spec {fs : Side} {p g : N} {sib uncle : SearchTree N}
    (h : m.Represents (plug path (join side false (join fs true t p sib) g uncle)))
    (ht : RedBlack t true n) (htop : t.top? = some a) (hsib : RedBlack sib false n)
    (huncle : RedBlack uncle false n) :
    ∃ m' a' t', m.insertColorTurn side a p g = some (m', a') ∧
      Reshapes m (plug path (join side false (join fs true t p sib) g uncle)) m' (plug path t') ∧
      RedBlack t' false (n + 1) ∧ ∀ q ∈ (m'.node a').parent, (m'.node q).red = false := by
  obtain ⟨m₁, a', p', t', sib', hrun, hreshapes₁, htop', ht', hsib'⟩ :=
    straighten_spec h ht htop hsib
  have hparent : m₁.Represents (plug (⟨side, false, g, uncle⟩ :: path) (join side true t' p' sib')) :=
    hreshapes₁.represents
  have hreshapes₂ := hparent.setRed false
  have hgparent : (m₁.setRed p' false).Represents
      (plug path (join side false (join side false t' p' sib') g uncle)) := hreshapes₂.represents
  have hreshapes₃ := hgparent.setRed true
  have hmirror : ((m₁.setRed p' false).setRed g true).Represents
      (plug path (join side.other true uncle g (join side.other false sib' p' t'))) := by
    rw [join_other, join_other]
    exact hreshapes₃.represents
  obtain ⟨m', hrotate, hreshapes₄⟩ := hmirror.rotate
  have hafter : Reshapes ((m₁.setRed p' false).setRed g true)
      (plug path (join side true (join side false t' p' sib') g uncle)) m'
      (plug path (join side.other false (join side.other true uncle g sib') p' t')) := by
    rw [join_other, join_other] at hreshapes₄
    exact hreshapes₄
  have hall := (hreshapes₁.trans hreshapes₂).trans (hreshapes₃.trans hafter)
  have hbelow : m'.Represents (plug
      (⟨side.other.other, false, p', join side.other true uncle g sib'⟩ :: path) t') := by
    rw [plug_sibling]
    exact hreshapes₄.represents
  refine ⟨m', a', _, ?_, hall, (huncle.join_red hsib').join_black ht', fun q hq => ?_⟩
  · rw [insertColorTurn, hrun]
    dsimp only [Option.bind_eq_bind, Option.bind_some]
    rw [hrotate]
    rfl
  · rw [hbelow.parent_eq htop'] at hq
    obtain rfl := Option.some.inj hq
    rw [hbelow.cell_parent, RbNode.red_towards]

omit [DecidableEq N] in
theorem Represents.red_eq (h : m.Represents (plug path t)) (ht : t.top? = some a) :
    (m.node a).red = t.topRed := by
  obtain ⟨red, near, far, rfl⟩ := exists_join .left ht
  rw [h.cell, RbNode.red_towards, topRed_join]

/-- Setting the topmost node of a subtree black blackens the subtree. -/
theorem Represents.blacken (h : m.Represents (plug path t)) (htop : t.top? = some a) :
    Reshapes m (plug path t) (m.setRed a false) (plug path t.blacken) := by
  obtain ⟨red, near, far, rfl⟩ := exists_join .left htop
  rw [blacken_join]
  exact h.setRed false

/-- Where the uncle is red, the red of it and of the parent goes up to what is above them. -/
theorem recolor_spec {fs : Side} {p g b : N} {sib uncle : SearchTree N}
    (h : m.Represents (plug path (join side false (join fs true t p sib) g uncle)))
    (htop : uncle.top? = some b) :
    Reshapes m (plug path (join side false (join fs true t p sib) g uncle))
      (((m.setRed b false).setRed p false).setRed g true)
      (plug path (join side true (join fs false t p sib) g uncle.blacken)) := by
  have huncle : m.Represents (plug (⟨side.other, false, g, join fs true t p sib⟩ :: path) uncle) := by
    rw [plug_sibling]
    exact h
  have hreshapes₁ := huncle.blacken htop
  rw [plug_sibling, plug_sibling] at hreshapes₁
  have hparent : (m.setRed b false).Represents
      (plug (⟨side, false, g, uncle.blacken⟩ :: path) (join fs true t p sib)) := hreshapes₁.represents
  have hreshapes₂ := hparent.setRed false
  have hgparent : ((m.setRed b false).setRed p false).Represents
      (plug path (join side false (join fs false t p sib) g uncle.blacken)) := hreshapes₂.represents
  exact (hreshapes₁.trans hreshapes₂).trans (hgparent.setRed true)

theorem insertColorLoop_spec (h : m.Represents (plug path t)) (ht : RedBlack t true n)
    (htop : t.top? = some a) (hpath : Takes path false n) (hfuel : path.length < fuel) :
    ∃ m' t', m.insertColorLoop fuel a = some m' ∧ Reshapes m (plug path t) m' t' ∧
      ∃ c k, RedBlack t' c k := by
  induction fuel generalizing m path t n a with
  | zero => exact absurd hfuel (Nat.not_lt_zero _)
  | succ fuel ih =>
      have hparent := h.parent_eq htop
      cases hpath with
      | nil => exact ⟨m, t, insertColorLoop_of_black (by simp [hparent, parentOf]), .refl h, true, n, ht⟩
      | @black side p sib path n c c' hsib hpath =>
          have hblack : ∀ q ∈ (m.node a).parent, (m.node q).red = false := by
            intro q hq
            rw [hparent] at hq
            obtain rfl := Option.some.inj hq
            rw [h.cell_parent, RbNode.red_towards]
          have htakes : Takes (⟨side, false, p, sib⟩ :: path) true n := .black hsib hpath
          obtain ⟨k, hk⟩ := htakes.plug ht
          exact ⟨m, _, insertColorLoop_of_black hblack, .refl h, false, k, hk⟩
      | @red fs p sib path n hsib hpath =>
          cases hpath with
          | @black side g uncle path n c c' huncle hpath =>
              have hp : m.Represents
                (plug (⟨side, false, g, uncle⟩ :: path) (join fs true t p sib)) := h
              have hg : m.Represents (plug path (join side false (join fs true t p sib) g uncle)) := h
              have hside : m.sideOf g (some p) = side := by
                have hsideOf := hp.sideOf_eq (hp.sibling_ne top?_join)
                rwa [top?_join] at hsideOf
              have hgparent : (m.node p).parent = some g := hp.parent_eq top?_join
              have hred : (m.node p).red = true := (hp.red_eq top?_join).trans topRed_join
              have hchild : m.child side.other g = uncle.top? := by
                rw [child, hp.cell_parent, RbNode.child_other_towards]
              rw [insertColorLoop, hparent]
              dsimp only [parentOf]
              rw [hred, if_pos rfl, hgparent]
              dsimp only [Option.bind_eq_bind, Option.bind_some]
              rw [hside, hchild]
              have hlength : path.length + 2 < fuel + 1 := hfuel
              have huncleAt : m.Represents
                  (plug (⟨side.other, false, g, join fs true t p sib⟩ :: path) uncle) := by
                rw [plug_sibling]
                exact hg
              cases c with
              | true =>
                  obtain ⟨near, b, far, huncleEq, -⟩ := exists_join_red .left huncle
                  have htopUncle : uncle.top? = some b := by rw [huncleEq, top?_join]
                  have hredUncle := (huncleAt.red_eq htopUncle).trans huncle.topRed
                  rw [htopUncle, Option.filter_some, if_pos hredUncle]
                  have hreshapes := recolor_spec hg htopUncle
                  have hjoin : RedBlack (join side true (join fs false t p sib) g uncle.blacken)
                    true (n + 1) := (ht.join_black hsib).join_red huncle.blacken_of_red
                  obtain ⟨m', t', hrun, hreshapes', hbalanced⟩ :=
                    ih hreshapes.represents hjoin top?_join hpath (by omega)
                  exact ⟨m', t', hrun, hreshapes.trans hreshapes', hbalanced⟩
              | false =>
                  have hnone : uncle.top?.filter (fun b => (m.node b).red) = none := by
                    rw [Option.filter_eq_none_iff]
                    intro b hb
                    rw [huncleAt.red_eq hb, huncle.topRed]
                    exact Bool.false_ne_true
                  rw [hnone]
                  obtain ⟨m', a', t', hrun, hreshapes, hblack, hparent'⟩ :=
                    insertColorTurn_spec hg ht htop hsib huncle
                  obtain ⟨fuel, rfl⟩ : ∃ k, fuel = k + 1 := ⟨fuel - 1, by omega⟩
                  obtain ⟨k, hk⟩ := hpath.plug hblack
                  refine ⟨m', plug path t', ?_, hreshapes, false, k, hk⟩
                  dsimp only
                  rw [hrun]
                  exact insertColorLoop_of_black hparent'

/-- A node that has been linked below a balanced tree is red, and the tree gets balanced. -/
theorem rbInsertColor_spec (h : m.Represents (plug path (.node true .leaf a .leaf)))
    (hbalanced : (plug path .leaf).Balanced) (hfuel : path.length < fuel) :
    ∃ m' t', m.rbInsertColor fuel a = some m' ∧
      Reshapes m (plug path (.node true .leaf a .leaf)) m' t' ∧ t'.Balanced := by
  obtain ⟨k, hk⟩ := hbalanced
  obtain ⟨c, n, hleaf, hpath⟩ := RedBlack.of_plug hk
  cases hleaf
  obtain ⟨m', t', hrun, hreshapes, c, n, ht'⟩ :=
    insertColorLoop_spec h (.red .leaf .leaf) rfl hpath hfuel
  cases htop : t'.top? with
  | none =>
      have hnode : a ∈ (plug path (.node true .leaf a .leaf)).inorder := by
        rw [inorder_plug]
        exact List.mem_append_right _ List.mem_cons_self
      rw [← hreshapes.inorder, top?_eq_none htop] at hnode
      cases hnode
  | some root =>
      have hroot : m'.root = some root := hreshapes.represents.root.trans htop
      have hplug : m'.Represents (plug [] t') := hreshapes.represents
      have hblacken := hplug.blacken htop
      refine ⟨m'.setRed root false, t'.blacken, ?_, hreshapes.trans hblacken, ht'.balanced_blacken⟩
      rw [rbInsertColor, hrun]
      dsimp only [Option.bind_eq_bind, Option.bind_some]
      rw [hroot]
      rfl

end InsertColor

end RbMem

end Pahole

import Pahole.Rbtree.EraseColor

/-!
# Removal from a red-black tree

`rb_erase` takes a node out that has at most one child, or puts the next node in its place.  The
order of the others stays, and so does the balance.
-/

namespace Pahole

open SearchTree

namespace RbMem

variable {N : Type*} [DecidableEq N]

omit [DecidableEq N] in
/-- The `while` of `rb_erase` that goes to the left. -/
def leftmost : ℕ → RbMem N → N → Option N
  | 0, _, _ => none
  | fuel + 1, m, node =>
      match m.child .left node with
      | some left => leftmost fuel m left
      | none => some node

/-- `rb_erase` for a node with at most one child, up to the label `color`. -/
def eraseSingle (m : RbMem N) (node : N) (child : Option N) : RbMem N :=
  let parent := (m.node node).parent
  (m.setParentOf child parent).relink .left parent node child

/-- `rb_erase` for the next node of one with two children, before it takes the place of that
one. -/
def eraseNext (m : RbMem N) (old node : N) : Option (RbMem N × Option N) := do
  let child := m.child .right node
  let parent ← (m.node node).parent
  let m := m.setParentOf child (some parent)
  if parent = old then pure (m.setChild .right parent child, some node)
  else pure (m.setChild .left parent child, some parent)

/-- The next node is put in the place of the old one. -/
def erasePlace (m : RbMem N) (old node : N) : Option (RbMem N) := do
  let m := m.update node fun _ => m.node old
  let m := m.relink .left (m.node old).parent old (some node)
  let left ← m.child .left old
  let m := m.setParent left (some node)
  pure (m.setParentOf (m.child .right old) (some node))

/-- `rb_erase` -/
def rbErase (fuel : ℕ) (m : RbMem N) (node : N) : Option (RbMem N) :=
  match m.child .left node, m.child .right node with
  | some _, some right => do
      let old := node
      let node ← leftmost fuel m right
      let child := m.child .right node
      let red := (m.node node).red
      let (m, parent) ← m.eraseNext old node
      let m ← m.erasePlace old node
      if red then pure m else m.rbEraseColor fuel child parent
  | left, right => do
      let child := left.or right
      let parent := (m.node node).parent
      let red := (m.node node).red
      let m := m.eraseSingle node child
      if red then pure m else m.rbEraseColor fuel child parent

section Erase

variable {m m' : RbMem N} {path : List (Frame N)} {side : Side} {fuel n : ℕ}
  {t left right : SearchTree N} {a y : N} {red c : Bool}

omit [DecidableEq N] in
theorem length_add_height_le : path.length + t.height ≤ (plug path t).height := by
  induction path generalizing t with
  | nil => exact (Nat.zero_add _).le
  | cons f path ih =>
      have hfill : t.height + 1 ≤ (f.fill t).height := by
        obtain ⟨side, red, value, sibling⟩ := f
        cases side with
        | left => exact Nat.succ_le_succ (le_max_left _ _)
        | right => exact Nat.succ_le_succ (le_max_right _ _)
      have hpath := ih (t := f.fill t)
      rw [List.length_cons, plug_cons]
      omega

/-- A node with one child, or none, is taken out, in whichever way the pointer to it is set. -/
theorem Represents.unlink (h : m.Represents (plug path (join side red .leaf a t)))
    (link : RbMem N → RbMem N)
    (hlink : ∀ m₁ : RbMem N, m₁.HoldsAround path (some a) → (link m₁).HoldsAround path t.top?)
    (hsame : ∀ m₁ : RbMem N, ∀ x, x ∉ around path → (link m₁).node x = m₁.node x) :
    (link (m.setParentOf t.top? (parentOf path))).Represents (plug path t) ∧
      SameOutside m (link (m.setParentOf t.top? (parentOf path)))
        (plug path (join side red .leaf a t)) := by
  obtain ⟨⟨haround, hholds⟩, hnodup⟩ := represents_plug.mp h
  rw [holds_join] at hholds
  obtain ⟨-, -, ht⟩ := hholds
  rw [top?_join] at haround
  obtain ⟨htree, hpath, hseparate⟩ := nodup_plug.mp hnodup
  obtain ⟨-, ⟨htNodup, -⟩, -⟩ := nodup_join.mp htree
  have htAround : ∀ x ∈ t.inorder, x ∉ around path := fun x hx =>
    hseparate x (mem_inorder_join.mpr (Or.inr (Or.inr hx)))
  have htop : ∀ x, x ∉ t.inorder → t.top? ≠ some x := fun x hx heq => hx (top?_mem heq)
  have haround₁ : (m.setParentOf t.top? (parentOf path)).HoldsAround path (some a) :=
    haround.congr (fun x hx => node_setParentOf (htop x fun hxt => htAround x hxt hx))
      root_setParentOf
  have ht₁ : (m.setParentOf t.top? (parentOf path)).Holds (parentOf path) t := ht.reparent htNodup
  refine ⟨represents_plug.mpr ⟨⟨hlink _ haround₁, ht₁.congr fun x hx => hsame _ x (htAround x hx)⟩,
    nodup_plug.mpr ⟨htNodup, hpath, htAround⟩⟩, fun x hx => ?_⟩
  rw [inorder_plug_perm.mem_iff, List.mem_append, not_or, mem_inorder_join] at hx
  simp only [not_or] at hx
  rw [hsame _ x hx.2, node_setParentOf (htop x hx.1.2.2)]

omit [DecidableEq N] in
/-- A node of a subtree is not among the nodes around it. -/
theorem Represents.not_around (h : m.Represents (plug path t)) (ha : a ∈ t.inorder) :
    a ∉ around path :=
  (nodup_plug.mp h.nodup).2.2 a ha

theorem Represents.eraseSingle (h : m.Represents (plug path (join side red .leaf a t))) :
    (m.eraseSingle a t.top?).Represents (plug path t) ∧
      SameOutside m (m.eraseSingle a t.top?) (plug path (join side red .leaf a t)) := by
  have haAround := h.not_around (mem_inorder_join.mpr (Or.inl rfl))
  have hpath := (nodup_plug.mp h.nodup).2.1
  rw [RbMem.eraseSingle, h.cell, RbNode.parent_towards]
  exact h.unlink (fun m₁ => m₁.relink .left (parentOf path) a t.top?)
    (fun m₁ haround => haround.relink haAround hpath)
    fun m₁ x hx => node_relink fun heq => hx (mem_around_of_parentOf heq)

/-- After a black node has been taken out, `__rb_erase_color` balances the tree. -/
theorem rbEraseColor_after {s : Side} (h : m.Represents (plug path t))
    (ht : RedBlack (join s red .leaf a t) c n) (htakes : Takes path c n)
    (hfuel : path.length < fuel) :
    ∃ m' t', (if red then pure m else m.rbEraseColor fuel t.top? (parentOf path)) = some m' ∧
      Reshapes m (plug path t) m' t' ∧ t'.Balanced := by
  cases red with
  | true =>
      obtain ⟨rfl, hleaf, ht⟩ := ht.of_join_red
      cases hleaf
      exact ⟨m, _, rfl, .refl h, htakes.black_of.plug ht⟩
  | false =>
      obtain ⟨rfl, k, c₁, c₂, rfl, -, ht⟩ := ht.of_join_black
      refine rbEraseColor_spec h ?_ htakes hfuel
      cases c₂ with
      | false => exact Or.inl ht
      | true => exact Or.inr ⟨ht.topRed, ht.blacken_of_red⟩

/-! ### Nodes with two children -/

omit [DecidableEq N] in
theorem leftmost_spec (h : m.Represents (plug path t)) (htop : t.top? = some a)
    (hfuel : t.height ≤ fuel) :
    ∃ q c y child, leftmost fuel m a = some y ∧ t = plug q (join .left c .leaf y child) ∧
      ∀ f ∈ q, f.side = .left := by
  induction t generalizing path fuel a with
  | leaf => cases htop
  | node red left value right ihl =>
      obtain rfl := Option.some.inj htop
      rw [height] at hfuel
      obtain ⟨fuel, rfl⟩ : ∃ k, fuel = k + 1 := ⟨fuel - 1, by omega⟩
      have hleft : m.Represents (plug (⟨.left, red, value, right⟩ :: path) left) := h
      have hchild : m.child .left value = left.top? := by
        rw [child, hleft.cell_parent, RbNode.child_towards]
      rw [leftmost, hchild]
      cases htopLeft : left.top? with
      | none =>
          rw [top?_eq_none htopLeft]
          exact ⟨[], red, value, right, rfl, rfl, fun f hf => absurd hf List.not_mem_nil⟩
      | some b =>
          have hfuelLeft : left.height ≤ fuel := by omega
          obtain ⟨q, c, y, child, hrun, rfl, hq⟩ := ihl hleft htopLeft hfuelLeft
          refine ⟨q ++ [⟨.left, red, value, right⟩], c, y, child, hrun, ?_, fun f hf => ?_⟩
          · rw [plug_append]
            rfl
          · rcases List.mem_append.mp hf with hf | hf
            · exact hq f hf
            · rw [List.mem_singleton.mp hf]

omit [DecidableEq N] in
theorem mem_around_append {q : List (Frame N)} (h : a ∈ around path) : a ∈ around (q ++ path) := by
  induction q with
  | nil => exact h
  | cons f q ih => exact mem_around_cons.mpr (Or.inr (Or.inr ih))

/-- Taking out the next node of the right subtree leaves the tree with the child of that node in
its place. -/
theorem eraseNext_spec {q : List (Frame N)}
    (h : m.Represents (plug (q ++ ⟨.right, red, a, left⟩ :: path) (join side c .leaf y t)))
    (hq : ∀ f ∈ q, f.side = .left) (hchild : m.child .right y = t.top?) :
    ∃ m', m.eraseNext a y = some (m', parentOf (q ++ ⟨.right, red, y, left⟩ :: path)) ∧
      m'.Represents (plug (q ++ ⟨.right, red, a, left⟩ :: path) t) ∧
      SameOutside m m' (plug (q ++ ⟨.right, red, a, left⟩ :: path) (join side c .leaf y t)) := by
  have hparent : (m.node y).parent = parentOf (q ++ ⟨.right, red, a, left⟩ :: path) :=
    h.parent_eq top?_join
  have hpath := (nodup_plug.mp h.nodup).2.1
  rw [eraseNext, hparent, hchild]
  cases q with
  | nil =>
      have hunlink := h.unlink (fun m₁ => m₁.setChild .right a t.top?)
        (fun m₁ haround => haround.setChild hpath)
        fun m₁ x hx => node_setChild_of_ne fun heq => hx (mem_around_cons.mpr (Or.inl heq))
      exact ⟨_, if_pos rfl, hunlink⟩
  | cons f q =>
      have hside := hq f List.mem_cons_self
      have hne : f.value ≠ a := by
        intro heq
        rw [List.cons_append, around_cons_perm.nodup_iff, List.nodup_cons, List.mem_append, not_or] at hpath
        refine hpath.1.2 ?_
        rw [heq]
        exact mem_around_append (mem_around_cons.mpr (Or.inl rfl))
      have hunlink := h.unlink (fun m₁ => m₁.setChild .left f.value t.top?)
        (fun m₁ haround => hside ▸ HoldsAround.setChild haround hpath)
        fun m₁ x hx => node_setChild_of_ne fun heq => hx (mem_around_cons.mpr (Or.inl heq))
      exact ⟨_, if_neg hne, hunlink⟩

/-- Putting another node in the place of a node leaves the tree as it is otherwise. -/
theorem erasePlace_spec {b : N} (h : m.Represents (plug path (.node red left a right)))
    (hleft : left.top? = some b) (hy : y ∉ (plug path (.node red left a right)).inorder) :
    ∃ m', m.erasePlace a y = some m' ∧ m'.Represents (plug path (.node red left y right)) ∧
      ∀ x, x ≠ y → x ∉ (plug path (.node red left a right)).inorder → m'.node x = m.node x := by
  have hcell : m.node a = ⟨parentOf path, red, right.top?, left.top?⟩ :=
    (represents_plug.mp h).1.2.1
  obtain ⟨⟨haround, -, hl, hr⟩, hnodup⟩ := represents_plug.mp h
  obtain ⟨htree, hpath, hseparate⟩ := nodup_plug.mp hnodup
  have htree' : (join .left red left a right).inorder.Nodup := htree
  obtain ⟨⟨hlNodup, hal⟩, ⟨hrNodup, har⟩, hlr⟩ := nodup_join.mp htree'
  have hmem : ∀ x, x ∈ (SearchTree.node red left a right).inorder ↔
      x = a ∨ x ∈ left.inorder ∨ x ∈ right.inorder := fun x =>
    (mem_inorder_join : x ∈ (join .left red left a right).inorder ↔ _)
  simp only [hmem] at hseparate
  rw [inorder_plug_perm.mem_iff, List.mem_append, hmem] at hy
  simp only [not_or] at hy
  obtain ⟨⟨hya, hyl, hyr⟩, hyAround⟩ := hy
  have haAround := hseparate a (Or.inl rfl)
  have hparent : ∀ x, x ∉ around path → parentOf path ≠ some x :=
    fun x hx heq => hx (mem_around_of_parentOf heq)
  have htopLeft : ∀ x, x ∉ left.inorder → left.top? ≠ some x := fun x hx heq => hx (top?_mem heq)
  have htopRight : ∀ x, x ∉ right.inorder → right.top? ≠ some x := fun x hx heq => hx (top?_mem heq)
  obtain ⟨m₁, hm₁⟩ : ∃ m₁, m₁ = m.update y fun _ => m.node a := ⟨_, rfl⟩
  obtain ⟨m₂, hm₂⟩ : ∃ m₂, m₂ = m₁.relink .left (parentOf path) a (some y) := ⟨_, rfl⟩
  obtain ⟨m₃, hm₃⟩ : ∃ m₃, m₃ = m₂.setParentOf left.top? (some y) := ⟨_, rfl⟩
  have hm₃' : m₃ = m₂.setParent b (some y) := by
    rw [hm₃, hleft]
    rfl
  obtain ⟨m₄, hm₄⟩ : ∃ m₄, m₄ = m₃.setParentOf right.top? (some y) := ⟨_, rfl⟩
  have hsame₂ : ∀ x, x ≠ y → x ∉ around path → m₂.node x = m.node x := fun x hxy hx => by
    rw [hm₂, node_relink (hparent x hx), hm₁, node_update_of_ne hxy]
  have hsame₄ : ∀ x, x ∉ left.inorder → x ∉ right.inorder → m₄.node x = m₂.node x :=
    fun x hxl hxr => by
      rw [hm₄, node_setParentOf (htopRight x hxr), hm₃, node_setParentOf (htopLeft x hxl)]
  have hcell₂ : m₂.node a = ⟨parentOf path, red, right.top?, left.top?⟩ := by
    rw [hsame₂ a (Ne.symm hya) haAround, hcell]
  have hcell₃ : m₃.node a = ⟨parentOf path, red, right.top?, left.top?⟩ := by
    rw [hm₃, node_setParentOf (htopLeft a hal), hcell₂]
  have hrun : m.erasePlace a y = some m₄ := by
    have hparentA : (m₁.node a).parent = parentOf path := by
      rw [hm₁, node_update_of_ne (Ne.symm hya), hcell]
    have hleftA : m₂.child .left a = some b := by
      rw [child, hcell₂]
      exact hleft
    have hrightA : m₃.child .right a = right.top? := by
      rw [child, hcell₃]
      rfl
    rw [erasePlace, ← hm₁]
    dsimp only [Option.bind_eq_bind, Option.pure_def]
    rw [hparentA, ← hm₂, hleftA]
    dsimp only [Option.bind_some]
    rw [← hm₃', hrightA, ← hm₄]
  have haround₂ : m₂.HoldsAround path (some y) := by
    rw [hm₂]
    refine HoldsAround.relink (haround.congr (fun x hx => ?_) (by rw [hm₁]; rfl)) haAround hpath
    rw [hm₁, node_update_of_ne (ne_of_mem_of_not_mem hx hyAround)]
  have hleft₃ : m₃.Holds (some y) left := by
    rw [hm₃]
    refine Holds.reparent (hl.congr fun x hx => ?_) hlNodup
    exact hsame₂ x (ne_of_mem_of_not_mem hx hyl) (hseparate x (Or.inr (Or.inl hx)))
  have hright₄ : m₄.Holds (some y) right := by
    rw [hm₄]
    refine Holds.reparent (hr.congr fun x hx => ?_) hrNodup
    have hxl : x ∉ left.inorder := fun hxl => hlr x hxl hx
    rw [hm₃, node_setParentOf (htopLeft x hxl),
      hsame₂ x (ne_of_mem_of_not_mem hx hyr) (hseparate x (Or.inr (Or.inr hx)))]
  have htree'' : (join .left red left y right).inorder.Nodup :=
    nodup_join.mpr ⟨⟨hlNodup, hyl⟩, ⟨hrNodup, hyr⟩, hlr⟩
  refine ⟨m₄, hrun, represents_plug.mpr ⟨⟨haround₂.congr (fun x hx => ?_) ?_, ?_, ?_, hright₄⟩,
    nodup_plug.mpr ⟨htree'', hpath, fun x hx => ?_⟩⟩, fun x hxy hx => ?_⟩
  · refine hsame₄ x (fun hxl => ?_) fun hxr => ?_
    · exact hseparate x (Or.inr (Or.inl hxl)) hx
    · exact hseparate x (Or.inr (Or.inr hxr)) hx
  · rw [hm₄, root_setParentOf, hm₃, root_setParentOf]
  · rw [hsame₄ y hyl hyr, hm₂, node_relink (hparent y hyAround), hm₁, node_update_self, hcell]
  · refine hleft₃.congr fun x hx => ?_
    rw [hm₄, node_setParentOf (htopRight x (hlr x hx))]
  · have hx' : x ∈ (join .left red left y right).inorder := hx
    rcases mem_inorder_join.mp hx' with rfl | hxl | hxr
    · exact hyAround
    · exact hseparate x (Or.inr (Or.inl hxl))
    · exact hseparate x (Or.inr (Or.inr hxr))
  · rw [inorder_plug_perm.mem_iff, List.mem_append, hmem] at hx
    simp only [not_or] at hx
    rw [hsame₄ x hx.1.2.1 hx.1.2.2, hsame₂ x hxy hx.2]

omit [DecidableEq N] in
/-- Another value on the path does not change which subtrees it takes. -/
theorem takes_of_value {q : List (Frame N)} {sibling : SearchTree N}
    (h : Takes (q ++ ⟨side, red, a, sibling⟩ :: path) c n) :
    Takes (q ++ ⟨side, red, y, sibling⟩ :: path) c n := by
  induction q generalizing c n with
  | nil =>
      cases h with
      | red hsib hpath => exact .red hsib hpath
      | black hsib hpath => exact .black hsib hpath
  | cons f q ih =>
      cases h with
      | red hsib hpath => exact .red hsib (ih hpath)
      | black hsib hpath => exact .black hsib (ih hpath)

/-- The memory has a balanced tree with the nodes of `t` but `a`, in the same order, and all
nodes outside `t` are unchanged. -/
structure Removes (m : RbMem N) (t : SearchTree N) (a : N) (m' : RbMem N) (t' : SearchTree N) :
    Prop where
  represents : m'.Represents t'
  inorder : ∃ xs ys, t.inorder = xs ++ a :: ys ∧ t'.inorder = xs ++ ys
  balanced : t'.Balanced
  same : SameOutside m m' t

theorem rbErase_single {s : Side} (h : m.Represents (plug path (join s red .leaf a t)))
    (hbalanced : (plug path (join s red .leaf a t)).Balanced) (hfuel : path.length < fuel) :
    ∃ m' t', m.rbErase fuel a = some m' ∧ Removes m (plug path (join s red .leaf a t)) a m' t' := by
  obtain ⟨k, hk⟩ := hbalanced
  obtain ⟨c, n, hjoin, htakes⟩ := RedBlack.of_plug hk
  obtain ⟨hsingle, hsame⟩ := h.eraseSingle
  obtain ⟨m', t', hrun, hreshapes, hbalanced'⟩ := rbEraseColor_after hsingle hjoin htakes hfuel
  have hred : (m.node a).red = red := by rw [h.cell, RbNode.red_towards]
  have hparent : (m.node a).parent = parentOf path := by rw [h.cell, RbNode.parent_towards]
  have hinorder : ∃ xs ys, (plug path (join s red .leaf a t)).inorder = xs ++ a :: ys ∧
      (plug path t).inorder = xs ++ ys := by
    rw [inorder_plug, inorder_plug]
    cases s with
    | left => exact ⟨before path, t.inorder ++ after path, rfl, rfl⟩
    | right =>
        refine ⟨before path ++ t.inorder, after path, ?_, (List.append_assoc _ _ _).symm⟩
        rw [join, inorder, inorder, List.append_assoc, List.append_assoc]
        rfl
  have hinside : ∀ x, x ∉ (plug path (join s red .leaf a t)).inorder →
      x ∉ (plug path t).inorder := by
    obtain ⟨xs, ys, hwith, hwithout⟩ := hinorder
    rw [hwith, hwithout]
    intro x hx hmem
    rcases List.mem_append.mp hmem with hmem | hmem
    · exact hx (List.mem_append_left _ hmem)
    · exact hx (List.mem_append_right _ (List.mem_cons_of_mem _ hmem))
  refine ⟨m', t', ?_, hreshapes.represents, ?_, hbalanced', fun x hx => ?_⟩
  · rw [rbErase, ← hrun]
    have hchild : (m.child s a = none ∧ m.child s.other a = t.top?) := by
      rw [child, child, h.cell, RbNode.child_towards, RbNode.child_other_towards]
      exact ⟨rfl, rfl⟩
    cases s with
    | left =>
        rw [Side.other] at hchild
        rw [hchild.1, hchild.2, ← hparent]
        dsimp only [Option.bind_eq_bind, Option.none_or]
        rw [hred]
    | right =>
        rw [Side.other] at hchild
        rw [hchild.1, hchild.2, ← hparent]
        cases htop : t.top? with
        | none =>
            dsimp only [Option.none_or]
            rw [hred]
        | some b =>
            dsimp only [Option.some_or]
            rw [hred]
  · rw [hreshapes.inorder]
    exact hinorder
  · rw [hreshapes.same x (hinside x hx), hsame x hx]

omit [DecidableEq N] in
theorem before_of_left {q : List (Frame N)} (hq : ∀ f ∈ q, f.side = .left) : before q = [] := by
  induction q with
  | nil => rfl
  | cons f q ih =>
      rw [before, hq f List.mem_cons_self]
      exact ih fun f' hf' => hq f' (List.mem_cons_of_mem _ hf')

theorem rbErase_double {b : N} (h : m.Represents (plug path (.node red left a right)))
    (hleft : left.top? = some b) (hright : right.top? ≠ none)
    (hbalanced : (plug path (.node red left a right)).Balanced)
    (hfuel : (plug path (.node red left a right)).height < fuel) :
    ∃ m' t', m.rbErase fuel a = some m' ∧ Removes m (plug path (.node red left a right)) a m' t' := by
  obtain ⟨d, hright⟩ := Option.ne_none_iff_exists'.mp hright
  have hbelow : m.Represents (plug (⟨.right, red, a, left⟩ :: path) right) := h
  have hheight : (⟨.right, red, a, left⟩ :: path).length + right.height ≤
    (plug (⟨.right, red, a, left⟩ :: path) right).height := length_add_height_le
  have hheight' : (plug (⟨.right, red, a, left⟩ :: path) right).height < fuel := hfuel
  obtain ⟨q, cy, y, child', hleftmost, rfl, hq⟩ :=
    leftmost_spec hbelow hright (show right.height ≤ fuel by omega)
  have hnext : m.Represents (plug (q ++ ⟨.right, red, a, left⟩ :: path) (join .left cy .leaf y child')) := by
    rw [plug_append]
    exact hbelow
  have hchild : m.child .right y = child'.top? := by
    rw [child, hnext.cell]
    rfl
  obtain ⟨m₁, hrun₁, hrep₁, hsame₁⟩ := eraseNext_spec hnext hq hchild
  have hplace : m₁.Represents (plug path (.node red left a (plug q child'))) := by
    have hplug := hrep₁
    rw [plug_append] at hplug
    exact hplug
  have htree : ∀ u, plug (q ++ ⟨.right, red, a, left⟩ :: path) u =
      plug path (.node red left a (plug q u)) := fun u => by
    rw [plug_append]
    rfl
  have hyTree := (nodup_plug.mp hnext.nodup)
  obtain ⟨-, ⟨-, hyChild⟩, -⟩ := nodup_join.mp hyTree.1
  have hyAround := hnext.not_around (mem_inorder_join.mpr (Or.inl rfl))
  have hy : y ∉ (plug path (.node red left a (plug q child'))).inorder := by
    rw [← htree, inorder_plug_perm.mem_iff, List.mem_append, not_or]
    exact ⟨hyChild, hyAround⟩
  obtain ⟨m₂, hrun₂, hrep₂, hsame₂⟩ := erasePlace_spec hplace hleft hy
  have hrep₂' : m₂.Represents (plug (q ++ ⟨.right, red, y, left⟩ :: path) child') := by
    rw [plug_append]
    exact hrep₂
  obtain ⟨k, hk⟩ := hbalanced
  rw [← htree] at hk
  obtain ⟨c, n, hjoin, htakes⟩ := RedBlack.of_plug hk
  have hlength : (q ++ ⟨.right, red, y, left⟩ :: path).length < fuel := by
    have hle : (q ++ ⟨.right, red, a, left⟩ :: path).length + (join .left cy .leaf y child').height ≤
      (plug (q ++ ⟨.right, red, a, left⟩ :: path) (join .left cy .leaf y child')).height :=
      length_add_height_le
    rw [htree, List.length_append, List.length_cons] at hle
    rw [List.length_append, List.length_cons]
    omega
  obtain ⟨m', t', hrun, hreshapes, hbalanced'⟩ :=
    rbEraseColor_after hrep₂' hjoin (takes_of_value htakes) hlength
  have hinorder : t'.inorder = (before path ++ left.inorder) ++
      (y :: (child'.inorder ++ after q) ++ after path) := by
    rw [hreshapes.inorder, plug_append, plug_cons, inorder_plug]
    change before path ++ ((left.inorder ++ y :: (plug q child').inorder) ++ after path) = _
    rw [inorder_plug, before_of_left hq]
    simp
  have hinorderOld : (plug path (.node red left a (plug q (join .left cy .leaf y child')))).inorder =
      (before path ++ left.inorder) ++ a :: (y :: (child'.inorder ++ after q) ++ after path) := by
    rw [inorder_plug]
    change before path ++ ((left.inorder ++ a :: (plug q _).inorder) ++ after path) = _
    rw [inorder_plug, before_of_left hq]
    simp [join, inorder]
  refine ⟨m', t', ?_, hreshapes.represents, ⟨_, _, hinorderOld, hinorder⟩, hbalanced',
    fun x hx => ?_⟩
  · have hcell : m.node a = ⟨parentOf path, red, some d, some b⟩ := by
      rw [(represents_plug.mp h).1.2.1, hright, hleft]
    have hredY : (m.node y).red = cy := by rw [hnext.cell, RbNode.red_towards]
    have hchildren : m.child .left a = some b ∧ m.child .right a = some d := by
      rw [child, child, hcell]
      exact ⟨rfl, rfl⟩
    rw [rbErase, hchildren.1, hchildren.2]
    dsimp only [Option.bind_eq_bind]
    rw [hleftmost]
    dsimp only [Option.bind_some]
    rw [hrun₁]
    dsimp only [Option.bind_some]
    rw [hrun₂]
    dsimp only [Option.bind_some]
    rw [hredY, hchild]
    exact hrun
  · have hx' := hx
    rw [← htree, inorder_plug_perm.mem_iff, List.mem_append, not_or, mem_inorder_join] at hx'
    simp only [not_or] at hx'
    have hxPlace : x ∉ (plug path (.node red left a (plug q child'))).inorder := by
      rw [← htree, inorder_plug_perm.mem_iff, List.mem_append, not_or]
      exact ⟨hx'.1.2.2, hx'.2⟩
    have hxAfter : x ∉ (plug (q ++ ⟨.right, red, y, left⟩ :: path) child').inorder := by
      rw [← hreshapes.inorder, hinorder]
      rw [hinorderOld] at hx
      intro hmem
      rcases List.mem_append.mp hmem with hmem | hmem
      · exact hx (List.mem_append_left _ hmem)
      · exact hx (List.mem_append_right _ (List.mem_cons_of_mem _ hmem))
    rw [hreshapes.same x hxAfter, hsame₂ x hx'.1.1 hxPlace]
    refine hsame₁ x ?_
    rw [htree]
    exact hx

/-- Whichever node of a balanced tree is taken out, the others stay in their order and balanced. -/
theorem rbErase_spec (h : m.Represents t) (hbalanced : t.Balanced) (ha : a ∈ t.inorder)
    (hfuel : t.height < fuel) : ∃ m' t', m.rbErase fuel a = some m' ∧ Removes m t a m' t' := by
  obtain ⟨path, red, left, right, rfl⟩ := exists_plug ha
  have hlength : path.length < fuel :=
    lt_of_le_of_lt (le_trans (Nat.le_add_right _ _) length_add_height_le) hfuel
  cases hleft : left.top? with
  | none =>
      obtain rfl := top?_eq_none hleft
      exact rbErase_single (s := .left) h hbalanced hlength
  | some b =>
      by_cases hright : right.top? = none
      · obtain rfl := top?_eq_none hright
        exact rbErase_single (s := .right) h hbalanced hlength
      · exact rbErase_double h hleft hright hbalanced hfuel

end Erase

end RbMem

end Pahole

import Pahole.Rbtree.InsertColor

/-!
# Balance after a removal

Where a black node has been taken out, the ways through it have a black node less than the
others.  `__rb_erase_color` goes up until it finds a red node to make black, or turns the tree
about to get one.
-/

namespace Pahole

open SearchTree

namespace RbMem

variable {N : Type*} [DecidableEq N]

/-- `!node || rb_is_black(node)` -/
def isBlack (m : RbMem N) (node : Option N) : Bool := node.all fun node => !(m.node node).red

/-- A red sibling of what is too short changes places with the parent. -/
def eraseRedSibling (side : Side) (m : RbMem N) (parent other : N) : Option (RbMem N × N) :=
  if (m.node other).red then do
    let m ← ((m.setRed other false).setRed parent true).rotate side parent
    let other ← m.child side.other parent
    pure (m, other)
  else some (m, other)

/-- A sibling whose outer child is black changes places with the inner one. -/
def eraseStraighten (side : Side) (m : RbMem N) (parent other : N) : Option (RbMem N × N) :=
  if m.isBlack (m.child side.other other) then do
    let near ← m.child side other
    let m ← ((m.setRed near false).setRed other true).rotate side.other other
    let other ← m.child side.other parent
    pure (m, other)
  else some (m, other)

/-- The rotations of `__rb_erase_color` where the sibling has a red child. -/
def eraseTurn (side : Side) (m : RbMem N) (parent other : N) : Option (RbMem N) := do
  let (m, other) ← m.eraseStraighten side parent other
  let m := (m.setRed other (m.node parent).red).setRed parent false
  let far ← m.child side.other other
  (m.setRed far false).rotate side parent

/-- The `while` of `__rb_erase_color`, whose two branches differ by the sides, with the last node. -/
def eraseColorLoop : ℕ → RbMem N → Option N → Option N → Option (RbMem N × Option N)
  | 0, _, _, _ => none
  | fuel + 1, m, node, parent =>
      if m.isBlack node ∧ node ≠ m.root then do
        let p ← parent
        let side := m.sideOf p node
        let other ← m.child side.other p
        let (m, other) ← m.eraseRedSibling side p other
        if m.isBlack (m.child .left other) ∧ m.isBlack (m.child .right other) then
          let m := m.setRed other true
          eraseColorLoop fuel m (some p) (m.node p).parent
        else do
          let m ← m.eraseTurn side p other
          pure (m, m.root)
      else some (m, node)

/-- `__rb_erase_color` -/
def rbEraseColor (fuel : ℕ) (m : RbMem N) (node parent : Option N) : Option (RbMem N) := do
  let (m, node) ← m.eraseColorLoop fuel node parent
  match node with
  | some node => pure (m.setRed node false)
  | none => pure m

section EraseColor

variable {m : RbMem N} {path : List (Frame N)} {side : Side} {f : Frame N} {fuel n : ℕ}
  {t sib x y : SearchTree N} {a p o : N} {red c c' : Bool}

omit [DecidableEq N] in
theorem Represents.isBlack_eq (h : m.Represents (plug path t)) : m.isBlack t.top? = !t.topRed := by
  cases htop : t.top? with
  | none =>
      rw [top?_eq_none htop]
      rfl
  | some a =>
      rw [isBlack, Option.all_some, h.red_eq htop]

omit [DecidableEq N] in
theorem top?_plug_mem (f : Frame N) (path : List (Frame N)) (t : SearchTree N) :
    ∃ r ∈ around (f :: path), (plug (f :: path) t).top? = some r := by
  induction path generalizing f t with
  | nil => exact ⟨f.value, mem_around_cons.mpr (Or.inl rfl), top?_join⟩
  | cons g path ih =>
      obtain ⟨r, hr, htop⟩ := ih g (f.fill t)
      exact ⟨r, mem_around_cons.mpr (Or.inr (Or.inr hr)), htop⟩

omit [DecidableEq N] in
/-- A subtree with a node above it is not the root. -/
theorem Represents.ne_root (h : m.Represents (plug (f :: path) t)) : t.top? ≠ m.root := by
  obtain ⟨r, hr, htop⟩ := top?_plug_mem f path t
  obtain ⟨-, -, hseparate⟩ := nodup_plug.mp h.nodup
  rw [h.root, htop]
  intro heq
  exact hseparate r (top?_mem heq) hr

omit [DecidableEq N] in
theorem exists_join_black (side : Side) (h : RedBlack t false (n + 1)) : ∃ near a far c c',
    t = join side false near a far ∧ RedBlack near c n ∧ RedBlack far c' n := by
  cases h with
  | @black left right a n c c' hleft hright =>
      cases side with
      | left => exact ⟨left, a, right, c, c', rfl, hleft, hright⟩
      | right => exact ⟨right, a, left, c', c, rfl, hright, hleft⟩

/-! ### The sibling -/

/-- After the case of a red sibling, the sibling is black. -/
theorem eraseRedSibling_spec (h : m.Represents (plug path (join side red t p sib)))
    (hsib : sib.top? = some o)
    (htakes : Takes (⟨side, red, p, sib⟩ :: path) false (n + 1)) :
    ∃ m' path' red' x o' y c c', m.eraseRedSibling side p o = some (m', o') ∧
      Reshapes m (plug path (join side red t p sib)) m'
        (plug path' (join side red' t p (join side false x o' y))) ∧
      RedBlack x c n ∧ RedBlack y c' n ∧
      Takes (⟨side, red', p, join side false x o' y⟩ :: path') false (n + 1) ∧
      (red' = true ∨ path'.length ≤ path.length) := by
  have hbelow : m.Represents (plug (⟨side.other, red, p, t⟩ :: path) sib) := by
    rw [plug_sibling]
    exact h
  obtain ⟨sibRed, x, y, rfl⟩ := exists_join side hsib
  have hred : (m.node o).red = sibRed := (hbelow.red_eq hsib).trans topRed_join
  cases sibRed with
  | false =>
      have hrun : m.eraseRedSibling side p o = some (m, o) := by
        rw [eraseRedSibling, hred, if_neg Bool.false_ne_true]
      have hsibling : ∃ c, RedBlack (join side false x o y) c (n + 1) := by
        cases htakes with
        | red hsib _ => exact ⟨_, hsib⟩
        | black hsib _ => exact ⟨_, hsib⟩
      obtain ⟨_, hs⟩ := hsibling
      obtain ⟨-, k, c, c', hk, hx, hy⟩ := hs.of_join_black
      obtain rfl := Nat.succ.inj hk
      exact ⟨m, path, red, x, o, y, c, c', hrun, .refl h, hx, hy, htakes, Or.inr (le_refl _)⟩
  | true =>
      cases htakes with
      | red hs _ => exact absurd hs.of_join_red.1 Bool.false_ne_true
      | black hs hpath =>
          obtain ⟨-, hx, hy⟩ := hs.of_join_red
          obtain ⟨x', o', y', c, c', rfl, hx', hy'⟩ := exists_join_black side hx
          have hreshapes₁ := hbelow.setRed false
          rw [plug_sibling, plug_sibling] at hreshapes₁
          have hparent : (m.setRed o false).Represents (plug path (join side false t p
              (join side false (join side false x' o' y') o y))) := hreshapes₁.represents
          have hreshapes₂ := hparent.setRed true
          obtain ⟨m', hrotate, hreshapes₃⟩ := hreshapes₂.represents.rotate
          have hall := (hreshapes₁.trans hreshapes₂).trans hreshapes₃
          have hbelow' : m'.Represents (plug (⟨side, false, o, y⟩ :: path)
              (join side true t p (join side false x' o' y'))) := hreshapes₃.represents
          have hchild : m'.child side.other p = some o' := by
            rw [child, hbelow'.cell, RbNode.child_other_towards, top?_join]
          have hrun : m.eraseRedSibling side p o = some (m', o') := by
            rw [eraseRedSibling, hred, if_pos rfl, hrotate]
            dsimp only [Option.bind_eq_bind, Option.bind_some]
            rw [hchild]
            rfl
          exact ⟨m', ⟨side, false, o, y⟩ :: path, true, x', o', y', c, c', hrun, hall, hx', hy',
            .red hx (.black hy hpath), Or.inl rfl⟩

/-- After the case of a black outer child, the outer child of the sibling is red. -/
theorem eraseStraighten_spec
    (h : m.Represents (plug path (join side red t p (join side false x o y))))
    (hx : RedBlack x c n) (hy : RedBlack y c' n) (hred : c = true ∨ c' = true) :
    ∃ m' x' o' y' c₁, m.eraseStraighten side p o = some (m', o') ∧
      Reshapes m (plug path (join side red t p (join side false x o y))) m'
        (plug path (join side red t p (join side false x' o' y'))) ∧
      RedBlack x' c₁ n ∧ RedBlack y' true n := by
  have hsib : m.Represents (plug (⟨side.other, red, p, t⟩ :: path) (join side false x o y)) := by
    rw [plug_sibling]
    exact h
  have hfar : m.Represents
      (plug (⟨side.other, false, o, x⟩ :: ⟨side.other, red, p, t⟩ :: path) y) := by
    rw [plug_sibling]
    exact hsib
  have hnear : m.Represents (plug (⟨side, false, o, y⟩ :: ⟨side.other, red, p, t⟩ :: path) x) := hsib
  have hchildFar : m.child side.other o = y.top? := by
    rw [child, hsib.cell, RbNode.child_other_towards]
  have hchildNear : m.child side o = x.top? := by rw [child, hsib.cell, RbNode.child_towards]
  have hblack : m.isBlack (m.child side.other o) = !c' := by
    rw [hchildFar, hfar.isBlack_eq, hy.topRed]
  cases c' with
  | true =>
      refine ⟨m, x, o, y, c, ?_, .refl h, hx, hy⟩
      rw [eraseStraighten, hblack, if_neg (by decide)]
  | false =>
      obtain rfl : c = true := hred.resolve_right Bool.false_ne_true
      obtain ⟨x₁, d, x₂, rfl, hx₁, hx₂⟩ := exists_join_red side.other hx
      have hreshapes₁ := hnear.setRed false
      have hsib₁ : (m.setRed d false).Represents (plug (⟨side.other, red, p, t⟩ :: path)
          (join side false (join side.other false x₁ d x₂) o y)) := hreshapes₁.represents
      have hreshapes₂ := hsib₁.setRed true
      have hmirror : ((m.setRed d false).setRed o true).Represents
          (plug (⟨side.other, red, p, t⟩ :: path)
            (join side.other true y o (join side.other false x₁ d x₂))) := by
        rw [join_other]
        exact hreshapes₂.represents
      obtain ⟨m', hrotate, hreshapes₃⟩ := hmirror.rotate
      have hafter : Reshapes m (plug (⟨side.other, red, p, t⟩ :: path)
          (join side false (join side.other true x₁ d x₂) o y)) m'
          (plug (⟨side.other, red, p, t⟩ :: path)
            (join side.other false (join side.other true y o x₁) d x₂)) := by
        rw [join_other] at hreshapes₃
        exact hreshapes₁.trans (hreshapes₂.trans hreshapes₃)
      have hmirrored : join side.other false (join side.other true y o x₁) d x₂ =
        join side false x₂ d (join side.other true y o x₁) := join_other
      rw [plug_sibling, plug_sibling, hmirrored] at hafter
      have hall : Reshapes m (plug path (join side red t p
          (join side false (join side.other true x₁ d x₂) o y))) m'
          (plug path (join side red t p (join side false x₂ d (join side.other true y o x₁)))) := hafter
      refine ⟨m', x₂, d, join side.other true y o x₁, false, ?_, hall, hx₂, hy.join_red hx₁⟩
      have hparent : m'.child side.other p = some d := by
        rw [child, hall.represents.cell, RbNode.child_other_towards, top?_join]
      rw [eraseStraighten, hblack, if_pos (by decide), hchildNear, top?_join]
      dsimp only [Option.bind_eq_bind, Option.bind_some]
      rw [hrotate]
      dsimp only [Option.bind_some]
      rw [hparent]
      rfl

/-- Where the sibling has a red child, one or two rotations make the tree balanced. -/
theorem eraseTurn_spec (h : m.Represents (plug path (join side red t p (join side false x o y))))
    (ht : RedBlack t false n) (hx : RedBlack x c n) (hy : RedBlack y c' n) (hred : c = true ∨ c' = true)
    (htakes : Takes (⟨side, red, p, join side false x o y⟩ :: path) false (n + 1)) :
    ∃ m' t', m.eraseTurn side p o = some m' ∧
      Reshapes m (plug path (join side red t p (join side false x o y))) m' t' ∧ t'.Balanced := by
  obtain ⟨m₁, x', o', y', c₁, hrun, hreshapes₁, hx', hy'⟩ := eraseStraighten_spec h hx hy hred
  obtain ⟨y₁, d, y₂, rfl, hy₁, hy₂⟩ := exists_join_red .left hy'
  have h₁ := hreshapes₁.represents
  have hparentRed : (m₁.node p).red = red := by rw [h₁.cell, RbNode.red_towards]
  have hsib : m₁.Represents (plug (⟨side.other, red, p, t⟩ :: path)
      (join side false x' o' (join .left true y₁ d y₂))) := by
    rw [plug_sibling]
    exact h₁
  have hreshapes₂ := hsib.setRed red
  rw [plug_sibling, plug_sibling] at hreshapes₂
  have hreshapes₃ := hreshapes₂.represents.setRed false
  have hfar : ((m₁.setRed o' red).setRed p false).Represents
      (plug (⟨side.other, red, o', x'⟩ :: ⟨side.other, false, p, t⟩ :: path)
        (join .left true y₁ d y₂)) := by
    rw [plug_sibling, plug_sibling]
    exact hreshapes₃.represents
  have hreshapes₄ := hfar.setRed false
  rw [plug_sibling, plug_sibling, plug_sibling, plug_sibling] at hreshapes₄
  obtain ⟨m', hrotate, hreshapes₅⟩ := hreshapes₄.represents.rotate
  have hall := (hreshapes₁.trans hreshapes₂).trans (hreshapes₃.trans (hreshapes₄.trans hreshapes₅))
  have hnear : RedBlack (join side false t p x') false (n + 1) := ht.join_black hx'
  have hfarBlack : RedBlack (join .left false y₁ d y₂) false (n + 1) := hy₁.join_black hy₂
  refine ⟨m', _, ?_, hall, ?_⟩
  · have hchild : ((m₁.setRed o' red).setRed p false).child side.other o' = some d := by
      rw [child, hfar.cell_parent, RbNode.child_towards, top?_join]
    rw [eraseTurn, hrun]
    dsimp only [Option.bind_eq_bind, Option.bind_some]
    rw [hparentRed, hchild]
    exact hrotate
  · cases htakes with
    | red _ hpath => exact hpath.plug (hnear.join_red hfarBlack)
    | black _ hpath => exact hpath.plug (hnear.join_black hfarBlack)

/-! ### The loop -/

/-- The subtree has `n` black nodes on each path, and a black top or a red one that will be made
black. -/
def Short (t : SearchTree N) (n : ℕ) : Prop :=
  RedBlack t false n ∨ t.topRed = true ∧ RedBlack t.blacken false (n + 1)

omit [DecidableEq N] in
theorem exists_top (h : RedBlack t c (n + 1)) : ∃ o, t.top? = some o := by
  cases h with
  | red _ _ => exact ⟨_, rfl⟩
  | black _ _ => exact ⟨_, rfl⟩

omit [DecidableEq N] in
/-- The test of `__rb_erase_color` that both children of a node are black, a missing child being
black. -/
theorem Represents.children_black (h : m.Represents (plug path (join side red x o y)))
    (hx : RedBlack x c n) (hy : RedBlack y c' n) :
    (m.isBlack (m.child .left o) = true ∧ m.isBlack (m.child .right o) = true) ↔
      c = false ∧ c' = false := by
  have hnear : m.Represents (plug (⟨side, red, o, y⟩ :: path) x) := h
  have hfar : m.Represents (plug (⟨side.other, red, o, x⟩ :: path) y) := by
    rw [plug_sibling]
    exact h
  have hchildNear : m.isBlack (m.child side o) = !c := by
    rw [child, h.cell, RbNode.child_towards, hnear.isBlack_eq, hx.topRed]
  have hchildFar : m.isBlack (m.child side.other o) = !c' := by
    rw [child, h.cell, RbNode.child_other_towards, hfar.isBlack_eq, hy.topRed]
  cases side with
  | left =>
      rw [Side.other] at hchildFar
      rw [hchildNear, hchildFar, Bool.not_eq_true', Bool.not_eq_true']
  | right =>
      rw [Side.other] at hchildFar
      rw [hchildNear, hchildFar, Bool.not_eq_true', Bool.not_eq_true', and_comm]

theorem eraseColorLoop_spec (h : m.Represents (plug path t)) (ht : Short t n)
    (htakes : Takes path false (n + 1)) (hpos : 0 < fuel)
    (hfuel : t.topRed = true ∨ path.length < fuel) :
    ∃ m' node' path' t', m.eraseColorLoop fuel t.top? (parentOf path) = some (m', node') ∧
      Reshapes m (plug path t) m' (plug path' t') ∧ t'.top? = node' ∧
      (plug path' t'.blacken).Balanced := by
  induction fuel generalizing m path t n with
  | zero => exact absurd hpos (lt_irrefl 0)
  | succ fuel ih =>
      have hblack := h.isBlack_eq
      rcases ht with ht | ⟨hred, ht⟩
      · cases path with
        | nil =>
            have hroot : t.top? = m.root := h.root.symm
            refine ⟨m, t.top?, [], t, ?_, .refl h, rfl, ht.balanced_blacken⟩
            rw [eraseColorLoop, if_neg fun hcond => hcond.2 hroot]
        | cons f path =>
            obtain ⟨side, red, p, sib⟩ := f
            obtain ⟨o, hsib⟩ : ∃ o, sib.top? = some o := by
              cases htakes with
              | red hs _ => exact exists_top hs
              | black hs _ => exact exists_top hs
            have hne : sib.top? ≠ t.top? := by
              cases htop : t.top? with
              | none =>
                  rw [hsib]
                  exact Option.some_ne_none o
              | some a => exact htop ▸ h.sibling_ne htop
            have hside : m.sideOf p t.top? = side := h.sideOf_eq hne
            have hchild : m.child side.other p = some o := by
              rw [child, h.cell_parent, RbNode.child_other_towards, hsib]
            have hlength : path.length < fuel := by
              rcases hfuel with hred | hlt
              · exact absurd (ht.topRed.symm.trans hred) Bool.false_ne_true
              · exact Nat.lt_of_succ_lt_succ hlt
            obtain ⟨m₁, path₁, red₁, x, o₁, y, c, c', hrun₁, hreshapes₁, hx, hy, htakes₁, hlength₁⟩ :=
              eraseRedSibling_spec h hsib htakes
            have hsib₁ : m₁.Represents (plug (⟨side.other, red₁, p, t⟩ :: path₁) (join side false x o₁ y)) := by
              rw [plug_sibling]
              exact hreshapes₁.represents
            have hchildren := hsib₁.children_black hx hy
            rw [eraseColorLoop, if_pos ⟨by rw [hblack, ht.topRed]; rfl, h.ne_root⟩]
            dsimp only [parentOf, Option.bind_eq_bind, Option.bind_some]
            rw [hside, hchild]
            dsimp only [Option.bind_some]
            rw [hrun₁]
            dsimp only [Option.bind_some]
            by_cases hboth : c = false ∧ c' = false
            · rw [if_pos (hchildren.mpr hboth)]
              obtain ⟨rfl, rfl⟩ := hboth
              have hreshapes₂ := hsib₁.setRed true
              rw [plug_sibling, plug_sibling] at hreshapes₂
              have hparent : ((m₁.setRed o₁ true).node p).parent = parentOf path₁ :=
                hreshapes₂.represents.parent_eq top?_join
              obtain ⟨k, hshort, htakes₂⟩ : ∃ k, Short (join side red₁ t p (join side true x o₁ y)) k ∧
                  Takes path₁ false (k + 1) := by
                have hred : RedBlack (join side true x o₁ y) true n := hx.join_red hy
                cases htakes₁ with
                | red _ hpath =>
                    refine ⟨n, Or.inr ⟨topRed_join, ?_⟩, hpath.black_of⟩
                    rw [blacken_join]
                    exact ht.join_black hred
                | black _ hpath => exact ⟨n + 1, Or.inl (ht.join_black hred), hpath⟩
              have hfuel' : (join side red₁ t p (join side true x o₁ y)).topRed = true ∨
                  path₁.length < fuel := by
                rw [topRed_join]
                exact hlength₁.imp_right fun hle => hle.trans_lt hlength
              obtain ⟨m', node', path', t', hrun, hreshapes, htop, hbalanced⟩ :=
                ih hreshapes₂.represents hshort htakes₂ (Nat.zero_lt_of_lt hlength) hfuel'
              refine ⟨m', node', path', t', ?_, (hreshapes₁.trans hreshapes₂).trans hreshapes, htop,
                hbalanced⟩
              rw [hparent, ← hrun, top?_join]
            · rw [if_neg fun hcond => hboth (hchildren.mp hcond)]
              have hred : c = true ∨ c' = true := by
                rcases Bool.eq_false_or_eq_true c with hc | hc
                · exact Or.inl hc
                · exact Or.inr (Bool.eq_true_of_not_eq_false fun hc' => hboth ⟨hc, hc'⟩)
              obtain ⟨m', t', hrun, hreshapes, k, hk⟩ :=
                eraseTurn_spec hreshapes₁.represents ht hx hy hred htakes₁
              refine ⟨m', m'.root, [], t', ?_, hreshapes₁.trans hreshapes, ?_, hk.balanced_blacken⟩
              · rw [hrun]
                rfl
              · exact hreshapes.represents.root.symm
      · refine ⟨m, t.top?, path, t, ?_, .refl h, rfl, htakes.plug ht⟩
        rw [eraseColorLoop, hblack, hred, if_neg fun hcond => Bool.false_ne_true hcond.1]

/-- `__rb_erase_color` balances a tree with a subtree that is too short. -/
theorem rbEraseColor_spec (h : m.Represents (plug path t)) (ht : Short t n)
    (htakes : Takes path false (n + 1)) (hfuel : path.length < fuel) :
    ∃ m' t', m.rbEraseColor fuel t.top? (parentOf path) = some m' ∧
      Reshapes m (plug path t) m' t' ∧ t'.Balanced := by
  obtain ⟨m₁, node, path', t', hrun, hreshapes, htop, hbalanced⟩ :=
    eraseColorLoop_spec h ht htakes (Nat.zero_lt_of_lt hfuel) (Or.inr hfuel)
  rw [rbEraseColor, hrun]
  cases node with
  | none =>
      refine ⟨m₁, _, rfl, hreshapes, ?_⟩
      rw [top?_eq_none htop] at hbalanced ⊢
      exact hbalanced
  | some a => exact ⟨_, _, rfl, hreshapes.trans (hreshapes.represents.blacken htop), hbalanced⟩

end EraseColor

end RbMem

end Pahole

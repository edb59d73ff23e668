import Pahole.Support.SearchTree

/-!
# Red-black trees with a hole

A tree is taken apart into a subtree and the path that leads up from it, on which an algorithm
goes that balances from the bottom.  The two sides of a tree are told apart by an argument, so
that what is said of one side is said of both.
-/

namespace SearchTree

variable {α : Type*}

/-! ## Trees and paths -/

inductive Side where
  | left
  | right
  deriving DecidableEq, Repr

@[simp]
def Side.other : Side → Side
  | .left => .right
  | .right => .left

@[simp]
theorem Side.other_other (side : Side) : side.other.other = side := by
  cases side <;> rfl

/-- The value of the topmost node. -/
def top? : SearchTree α → Option α
  | .leaf => none
  | .node _ _ value _ => some value

/-- The colour of the topmost node. -/
def topRed : SearchTree α → Bool
  | .leaf => false
  | .node red _ _ _ => red

/-- The topmost node becomes black. -/
def blacken : SearchTree α → SearchTree α
  | .leaf => .leaf
  | .node _ left value right => .node false left value right

/-- A node with one subtree on the side and one on the other. -/
def join (side : Side) (red : Bool) (near : SearchTree α) (value : α) (far : SearchTree α) :
    SearchTree α :=
  match side with
  | .left => .node red near value far
  | .right => .node red far value near

/-- A node above a hole, which is on a side of it. -/
structure Frame (α : Type*) where
  side : Side
  red : Bool
  value : α
  sibling : SearchTree α

/-- The subtree below a node is given. -/
def Frame.fill (f : Frame α) (t : SearchTree α) : SearchTree α :=
  join f.side f.red t f.value f.sibling

/-- The tree with a subtree where a path, from below, begins. -/
def plug (path : List (Frame α)) (t : SearchTree α) : SearchTree α :=
  path.foldl (fun t f => f.fill t) t

/-- The values before the hole. -/
def before : List (Frame α) → List α
  | [] => []
  | f :: path =>
      match f.side with
      | .left => before path
      | .right => before path ++ (f.sibling.inorder ++ [f.value])

/-- The values after the hole. -/
def after : List (Frame α) → List α
  | [] => []
  | f :: path =>
      match f.side with
      | .left => f.value :: (f.sibling.inorder ++ after path)
      | .right => after path

section Plug

variable {path path' : List (Frame α)} {f : Frame α} {t t' : SearchTree α} {side : Side}
  {red : Bool} {near far : SearchTree α} {x y : α}

theorem join_other : join side.other red near x far = join side red far x near := by
  cases side <;> rfl

theorem exists_join (side : Side) (h : t.top? = some x) :
    ∃ red near far, t = join side red near x far := by
  cases t with
  | leaf => cases h
  | node red left value right =>
      obtain rfl := Option.some.inj h
      cases side with
      | left => exact ⟨red, left, right, rfl⟩
      | right => exact ⟨red, right, left, rfl⟩

theorem top?_join : (join side red near x far).top? = some x := by
  cases side <;> rfl

theorem topRed_join : (join side red near x far).topRed = red := by
  cases side <;> rfl

theorem blacken_join : (join side red near x far).blacken = join side false near x far := by
  cases side <;> rfl

theorem plug_cons : plug (f :: path) t = plug path (f.fill t) := rfl

theorem plug_append : plug (path ++ path') t = plug path' (plug path t) :=
  List.foldl_append

theorem mem_inorder_join : y ∈ (join side red near x far).inorder ↔
    y = x ∨ y ∈ near.inorder ∨ y ∈ far.inorder := by
  cases side <;> simp [join, inorder] <;> tauto

theorem inorder_plug : (plug path t).inorder = before path ++ (t.inorder ++ after path) := by
  induction path generalizing t with
  | nil => exact (List.append_nil _).symm
  | cons f path ih =>
      obtain ⟨side, red, value, sibling⟩ := f
      rw [plug_cons, ih]
      cases side <;> simp [Frame.fill, join, inorder, before, after]

theorem inorder_plug_congr (h : t'.inorder = t.inorder) :
    (plug path t').inorder = (plug path t).inorder := by
  rw [inorder_plug, inorder_plug, h]

theorem top?_mem (h : t.top? = some x) : x ∈ t.inorder := by
  cases t with
  | leaf => cases h
  | node red left value right =>
      obtain rfl := Option.some.inj h
      exact List.mem_append_right _ List.mem_cons_self

theorem top?_eq_none (h : t.top? = none) : t = .leaf := by
  cases t with
  | leaf => rfl
  | node red left value right => cases h

/-- Every value of a tree is the root of a subtree in some context. -/
theorem exists_plug (h : x ∈ t.inorder) :
    ∃ path red left right, t = plug path (.node red left x right) := by
  suffices hall : ∀ path : List (Frame α), ∃ path' red left right,
      plug path t = plug path' (.node red left x right) from hall []
  induction t with
  | leaf => cases h
  | node red left value right ihl ihr =>
      intro path
      rcases List.mem_append.mp h with hleft | hright
      · exact ihl hleft (⟨.left, red, value, right⟩ :: path)
      · rcases List.mem_cons.mp hright with rfl | hright
        · exact ⟨path, red, left, right, rfl⟩
        · exact ihr hright (⟨.right, red, value, left⟩ :: path)

end Plug

/-! ## Balance -/

/-- No red node has a red child, and all paths have the same number of black nodes.  The colour
is that of the top. -/
inductive RedBlack : SearchTree α → Bool → ℕ → Prop
  | leaf : RedBlack .leaf false 0
  | red {left right : SearchTree α} {value : α} {n : ℕ} : RedBlack left false n →
      RedBlack right false n → RedBlack (.node true left value right) true n
  | black {left right : SearchTree α} {value : α} {n : ℕ} {c c' : Bool} : RedBlack left c n →
      RedBlack right c' n → RedBlack (.node false left value right) false (n + 1)

/-- A tree with a hole that a subtree of this colour and number of black nodes makes a red-black
tree of. -/
inductive Takes : List (Frame α) → Bool → ℕ → Prop
  | nil {n : ℕ} : Takes [] false n
  | red {side : Side} {value : α} {sibling : SearchTree α} {path : List (Frame α)} {n : ℕ} :
      RedBlack sibling false n → Takes path true n →
        Takes (⟨side, true, value, sibling⟩ :: path) false n
  | black {side : Side} {value : α} {sibling : SearchTree α} {path : List (Frame α)} {n : ℕ}
      {c c' : Bool} : RedBlack sibling c n → Takes path false (n + 1) →
        Takes (⟨side, false, value, sibling⟩ :: path) c' n

section Balance

variable {path : List (Frame α)} {t near far : SearchTree α} {side : Side} {c c' : Bool} {n : ℕ}
  {x : α}

theorem RedBlack.join_red (hnear : RedBlack near false n) (hfar : RedBlack far false n) :
    RedBlack (join side true near x far) true n := by
  cases side with
  | left => exact .red hnear hfar
  | right => exact .red hfar hnear

theorem RedBlack.join_black (hnear : RedBlack near c n) (hfar : RedBlack far c' n) :
    RedBlack (join side false near x far) false (n + 1) := by
  cases side with
  | left => exact .black hnear hfar
  | right => exact .black hfar hnear

theorem RedBlack.of_join_red (h : RedBlack (join side true near x far) c n) :
    c = true ∧ RedBlack near false n ∧ RedBlack far false n := by
  cases side with
  | left =>
      cases h with
      | red hnear hfar => exact ⟨rfl, hnear, hfar⟩
  | right =>
      cases h with
      | red hfar hnear => exact ⟨rfl, hnear, hfar⟩

theorem RedBlack.of_join_black (h : RedBlack (join side false near x far) c n) :
    c = false ∧ ∃ m c₁ c₂, n = m + 1 ∧ RedBlack near c₁ m ∧ RedBlack far c₂ m := by
  cases side with
  | left =>
      cases h with
      | black hnear hfar => exact ⟨rfl, _, _, _, rfl, hnear, hfar⟩
  | right =>
      cases h with
      | black hfar hnear => exact ⟨rfl, _, _, _, rfl, hnear, hfar⟩

theorem RedBlack.topRed (h : RedBlack t c n) : t.topRed = c := by
  cases h <;> rfl

theorem RedBlack.blacken_of_red (h : RedBlack t true n) : RedBlack t.blacken false (n + 1) := by
  cases h with
  | red hleft hright => exact .black hleft hright

theorem RedBlack.balanced_blacken (h : RedBlack t c n) : ∃ k, RedBlack t.blacken false k := by
  cases h with
  | leaf => exact ⟨_, .leaf⟩
  | red hleft hright => exact ⟨_, .black hleft hright⟩
  | black hleft hright => exact ⟨_, .black hleft hright⟩

theorem Takes.black_of (h : Takes path c n) : Takes path false n := by
  cases h with
  | nil => exact .nil
  | red hsibling hpath => exact .red hsibling hpath
  | black hsibling hpath => exact .black hsibling hpath

/-- A context filled with a subtree that it takes is a red-black tree. -/
theorem Takes.plug (h : Takes path c n) (ht : RedBlack t c n) :
    ∃ m, RedBlack (plug path t) false m := by
  induction h generalizing t with
  | nil => exact ⟨_, ht⟩
  | red hsibling _ ih => exact ih (ht.join_red hsibling)
  | black hsibling _ ih => exact ih (ht.join_black hsibling)

/-- A red-black tree consists of a red-black subtree and a path that takes it. -/
theorem RedBlack.of_plug {m : ℕ} (h : RedBlack (SearchTree.plug path t) false m) :
    ∃ c n, RedBlack t c n ∧ Takes path c n := by
  suffices hall : ∀ {c m}, RedBlack (SearchTree.plug path t) c m → c = false →
      ∃ c n, RedBlack t c n ∧ Takes path c n from hall h rfl
  clear h
  induction path generalizing t with
  | nil =>
      rintro c m h rfl
      exact ⟨_, _, h, .nil⟩
  | cons f path ih =>
      intro c m h hc
      obtain ⟨side, red, value, sibling⟩ := f
      obtain ⟨c', n, hfill, htakes⟩ := ih h hc
      cases red with
      | true =>
          obtain ⟨rfl, ht, hsibling⟩ := hfill.of_join_red
          exact ⟨_, _, ht, .red hsibling htakes⟩
      | false =>
          obtain ⟨rfl, n', c₁, c₂, rfl, ht, hsibling⟩ := hfill.of_join_black
          exact ⟨_, _, ht, .black hsibling htakes⟩

/-- A red-black tree with a black top. -/
def Balanced (t : SearchTree α) : Prop :=
  ∃ n, RedBlack t false n

/-- The number of nodes on the longest way down. -/
def height : SearchTree α → ℕ
  | .leaf => 0
  | .node _ left _ right => max left.height right.height + 1

theorem RedBlack.height_le (h : RedBlack t c n) : t.height ≤ 2 * n + c.toNat := by
  induction h with
  | leaf => exact Nat.zero_le _
  | red _ _ ihl ihr =>
      rw [height]
      simp only [Bool.toNat_false, Bool.toNat_true] at ihl ihr ⊢
      omega
  | @black left right value n c c' _ _ ihl ihr =>
      rw [height]
      have hc := Bool.toNat_le c
      have hc' := Bool.toNat_le c'
      simp only [Bool.toNat_false]
      omega

theorem RedBlack.two_pow_le (h : RedBlack t c n) : 2 ^ n ≤ t.inorder.length + 1 := by
  induction h with
  | leaf => exact le_refl _
  | red _ _ ihl ihr =>
      rw [inorder, List.length_append, List.length_cons]
      omega
  | black _ _ ihl ihr =>
      rw [inorder, List.length_append, List.length_cons, pow_succ]
      omega

/-- The height of a balanced tree is at most twice the logarithm of its size plus one. -/
theorem Balanced.height_le (h : t.Balanced) : t.height ≤ 2 * Nat.log 2 (t.inorder.length + 1) := by
  obtain ⟨n, hn⟩ := h
  have hheight := hn.height_le
  have hlog : n ≤ Nat.log 2 (t.inorder.length + 1) :=
    Nat.le_log_of_pow_le Nat.one_lt_two hn.two_pow_le
  rw [Bool.toNat_false] at hheight
  omega

theorem Balanced.height_le_of_le (h : t.Balanced) (hn : t.inorder.length ≤ n) :
    t.height ≤ 2 * Nat.log 2 (n + 1) :=
  h.height_le.trans (Nat.mul_le_mul_left 2 (Nat.log_mono_right (Nat.succ_le_succ hn)))

end Balance

end SearchTree

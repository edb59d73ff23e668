import Pahole.Dwarves.FunctionLookup
import Pahole.Rbtree.Erase

/-!
# Functions on the nodes of a tree

`cu__insert_function` goes down along the nodes to where a function belongs, links it there and
balances the tree, and `rb_erase` takes functions out again.  The nodes are a sorted tree all the
time, and never a deep one.
-/

namespace Pahole

open SearchTree

/-- The target of a `struct rb_node **`: the pointer of the root, or one of a node. -/
inductive RbLink (N : Type*) where
  | root
  | child (side : Side) (node : N)

namespace RbMem

variable {N : Type*} [DecidableEq N]

omit [DecidableEq N] in
def read (m : RbMem N) : RbLink N → Option N
  | .root => m.root
  | .child side node => m.child side node

def write (m : RbMem N) (p : Option N) : RbLink N → RbMem N
  | .root => { m with root := p }
  | .child side node => m.setChild side node p

/-- `rb_link_node` -/
def rbLinkNode (m : RbMem N) (node : N) (parent : Option N) (link : RbLink N) : RbMem N :=
  (m.update node fun _ => ⟨parent, true, none, none⟩).write (some node) link

/-- The `while` of `cu__insert_function`: the parent and where it points to the new node. -/
def insertLoop (goesLeft : N → Bool) : ℕ → RbMem N → Option N → RbLink N →
    Option (Option N × RbLink N)
  | 0, _, _, _ => none
  | fuel + 1, m, parent, p =>
      match m.read p with
      | none => some (parent, p)
      | some f => insertLoop goesLeft fuel m (some f) (.child (if goesLeft f then .left else .right) f)

/-- `cu__insert_function` -/
def cuInsertFunction (fn : N → FunctionRange) (fuel : ℕ) (m : RbMem N) (function : N) :
    Option (RbMem N) := do
  let (parent, p) ← insertLoop (fun f => (fn function).start < (fn f).start) fuel m none .root
  (m.rbLinkNode function parent p).rbInsertColor fuel function

/-- The `while` of `cu__find_function_at_addr`. -/
def findFunctionLoop (fn : N → FunctionRange) (addr : UInt64) : ℕ → RbMem N → Option N →
    Option (Option N)
  | 0, _, _ => none
  | _ + 1, _, none => some none
  | fuel + 1, m, some f =>
      match functionSide addr (fn f) with
      | .lt => findFunctionLoop fn addr fuel m (m.child .left f)
      | .gt => findFunctionLoop fn addr fuel m (m.child .right f)
      | .eq => some (some f)

/-- `cu__find_function_at_addr` -/
def cuFindFunctionAtAddr (fn : N → FunctionRange) (addr : UInt64) (fuel : ℕ) (m : RbMem N) :
    Option (Option N) :=
  findFunctionLoop fn addr fuel m m.root

/-! ## Linking -/

section Link

variable {m : RbMem N} {path : List (Frame N)} {t : SearchTree N} {a x : N} {p : Option N}
  {fuel : ℕ}
  {fn : N → FunctionRange} {addr : UInt64}

/-- The pointer to what is in a hole: the root, or a child of the node above. -/
def linkOf : List (Frame N) → RbLink N
  | [] => .root
  | f :: _ => .child f.side f.value

omit [DecidableEq N] in
theorem HoldsAround.read (h : m.HoldsAround path p) : m.read (linkOf path) = p := by
  cases path with
  | nil => exact h
  | cons f path =>
      rw [linkOf, RbMem.read, child, h.1, RbNode.child_towards]

/-- Writing through the pointer to the hole replaces its contents. -/
theorem HoldsAround.write {new : Option N} (h : m.HoldsAround path p)
    (hnodup : (around path).Nodup) :
    (m.write new (linkOf path)).HoldsAround path new := by
  cases path with
  | nil => rfl
  | cons f path => exact h.setChild hnodup

theorem node_write (hx : x ∉ around path) : (m.write p (linkOf path)).node x = m.node x := by
  cases path with
  | nil => rfl
  | cons f path =>
      exact node_setChild_of_ne fun heq => hx (mem_around_cons.mpr (Or.inl heq))

/-- `rb_link_node` puts a red node where a leaf is. -/
theorem Represents.rbLinkNode (h : m.Represents (plug path .leaf)) (ha : a ∉ around path) :
    (m.rbLinkNode a (parentOf path) (linkOf path)).Represents
        (plug path (.node true .leaf a .leaf)) ∧
      ∀ x, x ∉ a :: around path →
        (m.rbLinkNode a (parentOf path) (linkOf path)).node x = m.node x := by
  obtain ⟨⟨haround, -⟩, hnodup⟩ := represents_plug.mp h
  obtain ⟨-, hpath, -⟩ := nodup_plug.mp hnodup
  obtain ⟨m₁, hm₁⟩ : ∃ m₁, m₁ = m.update a fun _ => ⟨parentOf path, true, none, none⟩ := ⟨_, rfl⟩
  have haround₁ : m₁.HoldsAround path none := by
    refine haround.congr (fun x hx => ?_) (by rw [hm₁]; rfl)
    rw [hm₁, node_update_of_ne (ne_of_mem_of_not_mem hx ha)]
  rw [RbMem.rbLinkNode, ← hm₁]
  refine ⟨represents_plug.mpr
    ⟨⟨haround₁.write hpath, ?_, trivial, trivial⟩, nodup_plug.mpr ⟨?_, hpath, ?_⟩⟩,
    fun x hx => ?_⟩
  · rw [node_write ha, hm₁, node_update_self]
    rfl
  · exact List.nodup_singleton a
  · intro x hx
    obtain rfl := List.mem_singleton.mp hx
    exact ha
  · rw [List.mem_cons, not_or] at hx
    rw [node_write hx.2, hm₁, node_update_of_ne hx.1]

/-- A node that is not in a balanced tree is linked into a hole of it, and the tree is balanced
again. -/
theorem rbLinkNode_insertColor (h : m.Represents (plug path .leaf))
    (hbalanced : (plug path .leaf).Balanced) (ha : a ∉ around path) (hlength : path.length < fuel) :
    ∃ m' t', (m.rbLinkNode a (parentOf path) (linkOf path)).rbInsertColor fuel a = some m' ∧
      m'.Represents t' ∧ t'.Balanced ∧ t'.inorder = (plug path (.node true .leaf a .leaf)).inorder ∧
      ∀ x, x ∉ a :: around path → m'.node x = m.node x := by
  obtain ⟨hlinked, hsame⟩ := h.rbLinkNode ha
  obtain ⟨m', t', hcolor, hreshapes, hbalanced'⟩ := rbInsertColor_spec hlinked hbalanced hlength
  refine ⟨m', t', hcolor, hreshapes.represents, hbalanced', hreshapes.inorder, fun x hx => ?_⟩
  rw [hreshapes.same x, hsame x hx]
  rw [inorder_plug_perm.mem_iff]
  exact hx

omit [DecidableEq N] in
theorem around_perm_of_plug (h : plug path .leaf = t) : t.inorder.Perm (around path) := by
  have hinorder : (plug path .leaf).inorder.Perm (SearchTree.leaf.inorder ++ around path) :=
    inorder_plug_perm
  rwa [h] at hinorder

omit [DecidableEq N] in
/-- The loop of an insertion ends at the leaf where `place` puts the node. -/
theorem insertLoop_spec {κ : Type*} [LinearOrder κ] (key : N → κ) (x : N)
    (h : m.Represents (plug path t))
    (hfuel : t.height < fuel) :
    ∃ path', insertLoop (fun f => key x < key f) fuel m (parentOf path) (linkOf path) =
        some (parentOf path', linkOf path') ∧
      plug path' .leaf = plug path t ∧ plug path' (.node true .leaf x .leaf) = plug path (t.place key x) ∧
      path'.length ≤ path.length + t.height := by
  induction t generalizing path fuel with
  | leaf =>
      obtain ⟨fuel, rfl⟩ : ∃ k, fuel = k + 1 := ⟨fuel - 1, by rw [height] at hfuel; omega⟩
      refine ⟨path, ?_, rfl, rfl, le_refl _⟩
      rw [insertLoop, (represents_plug.mp h).1.1.read]
      rfl
  | node red left f right ihl ihr =>
      rw [height] at hfuel
      obtain ⟨fuel, rfl⟩ : ∃ k, fuel = k + 1 := ⟨fuel - 1, by omega⟩
      rw [insertLoop, (represents_plug.mp h).1.1.read, place, height]
      by_cases hlt : key x < key f
      · have hleft : m.Represents (plug (⟨.left, red, f, right⟩ :: path) left) := h
        have hfuelLeft : left.height < fuel := by omega
        obtain ⟨path', hrun, hplug, hplaced, hlength⟩ := ihl hleft hfuelLeft
        rw [List.length_cons] at hlength
        refine ⟨path', ?_, hplug, ?_, by omega⟩
        · dsimp only [top?]
          rw [decide_eq_true hlt, if_pos rfl]
          exact hrun
        · rw [hplaced, if_pos hlt]
          rfl
      · have hright : m.Represents (plug (⟨.right, red, f, left⟩ :: path) right) := h
        have hfuelRight : right.height < fuel := by omega
        obtain ⟨path', hrun, hplug, hplaced, hlength⟩ := ihr hright hfuelRight
        rw [List.length_cons] at hlength
        refine ⟨path', ?_, hplug, ?_, by omega⟩
        · dsimp only [top?]
          rw [decide_eq_false hlt, if_neg Bool.false_ne_true]
          exact hrun
        · rw [hplaced, if_neg hlt]
          rfl

omit [DecidableEq N] in
/-- The loop of `cu__find_function_at_addr` finds what `lookup` finds in the tree. -/
theorem findFunctionLoop_spec (h : m.Represents (plug path t)) (hfuel : t.height < fuel) :
    findFunctionLoop fn addr fuel m t.top? = some (t.lookup fun f => functionSide addr (fn f)) := by
  induction t generalizing path fuel with
  | leaf =>
      obtain ⟨fuel, rfl⟩ : ∃ k, fuel = k + 1 := ⟨fuel - 1, by rw [height] at hfuel; omega⟩
      rfl
  | node red left f right ihl ihr =>
      rw [height] at hfuel
      obtain ⟨fuel, rfl⟩ : ∃ k, fuel = k + 1 := ⟨fuel - 1, by omega⟩
      have hleft : m.Represents (plug (⟨.left, red, f, right⟩ :: path) left) := h
      have hright : m.Represents (plug (⟨.right, red, f, left⟩ :: path) right) := h
      have hchildLeft : m.child .left f = left.top? := by
        rw [child, hleft.cell_parent, RbNode.child_towards]
      have hchildRight : m.child .right f = right.top? := by
        rw [child, hright.cell_parent, RbNode.child_towards]
      rw [top?, findFunctionLoop, lookup, hchildLeft, hchildRight]
      cases functionSide addr (fn f) with
      | lt => exact ihl hleft (by omega)
      | gt => exact ihr hright (by omega)
      | eq => rfl

end Link

/-! ## Functions of a CU -/

section Functions

variable {fn : N → FunctionRange} {functions : List N} {m : RbMem N} {t : SearchTree N} {fuel : ℕ}
  {function : N}

variable (fn) in
/-- A function is linked where it belongs, and the tree is balanced. -/
theorem cuInsertFunction_spec (h : m.Represents t) (hbalanced : t.Balanced)
    (hnew : function ∉ t.inorder) (hfuel : t.height < fuel) :
    ∃ m' t', m.cuInsertFunction fn fuel function = some m' ∧ m'.Represents t' ∧ t'.Balanced ∧
      t'.inorder = (t.place (fun f => (fn f).start) function).inorder ∧
      ∀ x, x ∉ function :: t.inorder → m'.node x = m.node x := by
  have hroot : m.Represents (plug [] t) := h
  obtain ⟨path, hrun, hplug, hplaced, hlength⟩ :=
    insertLoop_spec (fun f => (fn f).start) function hroot hfuel
  have hperm := around_perm_of_plug hplug
  rw [List.length_nil, Nat.zero_add] at hlength
  obtain ⟨m', t', hcolor, hrep, hbalanced', hinorder, hsame⟩ :=
    rbLinkNode_insertColor (hplug.symm ▸ hroot) (hplug.symm ▸ hbalanced)
      (fun hmem => hnew (hperm.mem_iff.mpr hmem)) (hlength.trans_lt hfuel)
  refine ⟨m', t', ?_, hrep, hbalanced', ?_, fun x hx => hsame x ?_⟩
  · rw [RbMem.cuInsertFunction]
    change (insertLoop _ fuel m (parentOf []) (linkOf []) >>= _) = _
    rw [hrun]
    exact hcolor
  · rw [hinorder, hplaced]
    rfl
  · rwa [← (hperm.cons function).mem_iff]

omit [DecidableEq N] in
/-- A balanced tree is looked up in a number of turns that the logarithm tells. -/
theorem cuFindFunctionAtAddr_spec {n : ℕ} (h : m.Represents t) (hbalanced : t.Balanced)
    (hn : t.inorder.length ≤ n) (addr : UInt64) :
    cuFindFunctionAtAddr fn addr (2 * Nat.log 2 (n + 1) + 1) m =
      some (t.lookup fun f => functionSide addr (fn f)) := by
  have hplug : m.Represents (plug [] t) := h
  rw [cuFindFunctionAtAddr, h.root]
  exact findFunctionLoop_spec hplug (Nat.lt_succ_of_le (hbalanced.height_le_of_le hn))

/-- The memory has a balanced tree into which the functions have been linked, and a lookup in it
takes at most twice the logarithm of their number in turns. -/
structure HoldsFunctions (fn : N → FunctionRange) (functions : List N) (m : RbMem N)
    (t : SearchTree N) : Prop where
  represents : m.Represents t
  balanced : t.Balanced
  built : Built (fun f => (fn f).start) functions t
  found : ∀ addr, cuFindFunctionAtAddr fn addr (2 * Nat.log 2 (functions.length + 1) + 1) m =
    some (t.lookup fun f => functionSide addr (fn f))

/-- Inserting functions one after the other into an empty tree returns, and the memory holds a
balanced tree of them. -/
theorem cuInsertFunctions_balanced (hempty : m.root = none) (hnodup : functions.Nodup)
    (hfuel : 2 * Nat.log 2 (functions.length + 1) < fuel) :
    ∃ m' t, functions.foldlM (cuInsertFunction fn fuel) m = some m' ∧
      HoldsFunctions fn functions m' t ∧ ∀ x, x ∉ functions → m'.node x = m.node x := by
  induction functions using List.reverseRecOn with
  | nil =>
      have hrep : m.Represents .leaf := ⟨hempty, trivial, List.nodup_nil⟩
      have hbalanced : (SearchTree.leaf : SearchTree N).Balanced := ⟨0, .leaf⟩
      exact ⟨m, .leaf, rfl, ⟨hrep, hbalanced, .leaf, cuFindFunctionAtAddr_spec hrep hbalanced le_rfl⟩,
        fun _ _ => rfl⟩
  | append_singleton functions function ih =>
      obtain ⟨hfunctions, -, hdisjoint⟩ := List.nodup_append'.mp hnodup
      have hlog : 2 * Nat.log 2 (functions.length + 1) < fuel := by
        refine lt_of_le_of_lt (Nat.mul_le_mul_left 2 (Nat.log_mono_right ?_)) hfuel
        rw [List.length_append]
        omega
      obtain ⟨m₁, t₁, hrun₁, hholds, hsame₁⟩ := ih hfunctions hlog
      have hperm := hholds.built.keySorted_perm.2
      have hnew : function ∉ t₁.inorder := fun hmem =>
        hdisjoint (hperm.mem_iff.mp hmem) (List.mem_singleton_self _)
      have hheight := hholds.balanced.height_le_of_le hperm.length_eq.le
      obtain ⟨m', t', hrun, hrep, hbalanced, hinorder, hsame⟩ :=
        cuInsertFunction_spec fn hholds.represents hholds.balanced hnew (hheight.trans_lt hlog)
      have hbuilt : Built (fun f => (fn f).start) (functions ++ [function]) t' :=
        .place hholds.built hinorder
      refine ⟨m', t', ?_, ⟨hrep, hbalanced, hbuilt,
        cuFindFunctionAtAddr_spec hrep hbalanced hbuilt.keySorted_perm.2.length_eq.le⟩, fun x hx => ?_⟩
      · rw [List.foldlM_append, hrun₁]
        change (cuInsertFunction fn fuel m₁ function >>= pure) = _
        rw [hrun]
        rfl
      · rw [List.mem_append, List.mem_singleton, not_or] at hx
        rw [hsame x, hsame₁ x hx.1]
        rw [List.mem_cons, not_or, hperm.mem_iff]
        exact hx.symm

/-- Inserting three functions, the last one between the others, gives a balanced tree of them.
-/
theorem cuInsertFunctions_balanced_three : ∃ m' t,
    [2, 0, 1].foldlM (cuInsertFunction (fun i : Fin 3 => ⟨none, 16 * i.val.toUInt64, 16⟩) 5)
        ⟨none, fun _ => ⟨none, false, none, none⟩⟩ = some m' ∧
      HoldsFunctions (fun i : Fin 3 => ⟨none, 16 * i.val.toUInt64, 16⟩) [2, 0, 1] m' t ∧
      ∀ x, x ∉ [2, 0, 1] → m'.node x = ⟨none, false, none, none⟩ :=
  cuInsertFunctions_balanced rfl (by decide) (by decide)

/-! ## Insertions and removals -/

/-- An insertion or an erasure of a function. -/
inductive FunctionOp (N : Type*) where
  | add (function : N)
  | remove (function : N)

/-- `cu__insert_function`, or `rb_erase` -/
def functionStep (fn : N → FunctionRange) (fuel : ℕ) (m : RbMem N) : FunctionOp N → Option (RbMem N)
  | .add function => m.cuInsertFunction fn fuel function
  | .remove function => m.rbErase fuel function

/-- The functions after an operation; none is added twice, or removed that is not in the tree.
-/
def FunctionOp.apply (functions : Finset N) : FunctionOp N → Option (Finset N)
  | .add function => if function ∈ functions then none else some (insert function functions)
  | .remove function => if function ∈ functions then some (functions.erase function) else none

/-- The memory has a balanced tree of exactly the functions, sorted by their start. -/
structure SortsFunctions (fn : N → FunctionRange) (functions : Finset N) (m : RbMem N)
    (t : SearchTree N) : Prop where
  represents : m.Represents t
  balanced : t.Balanced
  sorted : KeySorted (fun f => (fn f).start) t.inorder
  values : t.inorder.toFinset = functions

variable {functions' : Finset N} {op : FunctionOp N} {ops : List (FunctionOp N)}

theorem SortsFunctions.mem_iff {functions : Finset N} (h : SortsFunctions fn functions m t)
    {x : N} :
    x ∈ t.inorder ↔ x ∈ functions := by
  rw [← h.values, List.mem_toFinset]

theorem SortsFunctions.length_eq {functions : Finset N} (h : SortsFunctions fn functions m t) :
    t.inorder.length = functions.card := by
  rw [← h.values, List.toFinset_card_of_nodup h.represents.nodup]

omit [DecidableEq N] in
theorem keySorted_place {κ : Type*} [LinearOrder κ] {key : N → κ} (function : N)
    (h : KeySorted key t.inorder) :
    KeySorted key (t.place key function).inorder ∧
      ∀ x, x ∈ (t.place key function).inorder ↔ x = function ∨ x ∈ t.inorder := by
  obtain ⟨before, after, hin, hplaced, hle, hgt⟩ := inorder_place (x := function) h
  rw [hin] at h ⊢
  rw [hplaced]
  obtain ⟨hbefore, hafter, hcross⟩ := List.pairwise_append.mp h
  refine ⟨List.pairwise_append.mpr ⟨hbefore, List.pairwise_cons.mpr
    ⟨fun v hv => (hgt v hv).le, hafter⟩, fun v hv => ?_⟩, fun x => ?_⟩
  · exact List.forall_mem_cons.mpr ⟨hle v hv, hcross v hv⟩
  · rw [List.perm_middle.mem_iff, List.mem_cons]

theorem functionStep_spec {functions : Finset N} (h : SortsFunctions fn functions m t)
    (hop : op.apply functions = some functions') (hfuel : t.height < fuel) :
    ∃ m' t', functionStep fn fuel m op = some m' ∧ SortsFunctions fn functions' m' t' := by
  cases op with
  | add function =>
      rw [FunctionOp.apply] at hop
      split at hop
      · cases hop
      · next hnew =>
          obtain rfl := Option.some.inj hop
          obtain ⟨m', t', hrun, hrep, hbalanced, hinorder, -⟩ :=
            cuInsertFunction_spec fn h.represents h.balanced (mt h.mem_iff.mp hnew) hfuel
          obtain ⟨hsorted, hmem⟩ := keySorted_place function h.sorted
          refine ⟨m', t', hrun, hrep, hbalanced, by rwa [hinorder], ?_⟩
          ext x
          rw [List.mem_toFinset, hinorder, hmem, Finset.mem_insert, h.mem_iff]
  | remove function =>
      rw [FunctionOp.apply] at hop
      split at hop
      · next hold =>
          obtain rfl := Option.some.inj hop
          obtain ⟨m', t', hrun, hremoves⟩ :=
            rbErase_spec h.represents h.balanced (h.mem_iff.mpr hold) hfuel
          obtain ⟨xs, ys, hwith, hwithout⟩ := hremoves.inorder
          have hsorted := h.sorted
          have hnodup := h.represents.nodup
          rw [hwith] at hsorted hnodup
          refine ⟨m', t', hrun, hremoves.represents, hremoves.balanced, ?_, ?_⟩
          · rw [hwithout]
            exact hsorted.sublist ((List.sublist_cons_self _ _).append_left _)
          · have hfresh := (List.nodup_middle.mp hnodup)
            rw [List.nodup_cons] at hfresh
            ext x
            rw [List.mem_toFinset, hwithout, Finset.mem_erase, ← h.mem_iff, hwith,
              List.perm_middle.mem_iff, List.mem_cons]
            constructor
            · exact fun hx => ⟨ne_of_mem_of_not_mem hx hfresh.1, Or.inr hx⟩
            · exact fun hx => hx.2.resolve_left hx.1
      · cases hop

theorem card_le_of_apply {functions : Finset N} (hop : op.apply functions = some functions') :
    functions'.card ≤ functions.card + 1 := by
  cases op with
  | add function =>
      rw [FunctionOp.apply] at hop
      split at hop
      · cases hop
      · obtain rfl := Option.some.inj hop
        exact Finset.card_insert_le _ _
  | remove function =>
      rw [FunctionOp.apply] at hop
      split at hop
      · obtain rfl := Option.some.inj hop
        exact (Finset.card_erase_le).trans (Nat.le_succ _)
      · cases hop

/-- After any insertions and erasures the memory has a balanced tree of exactly the functions
left, sorted by their start, and a lookup in it takes at most twice the logarithm of their
number in turns. -/
theorem functions_stay_sorted {functions : Finset N} (hempty : m.root = none)
    (hops : ops.foldlM FunctionOp.apply ∅ = some functions)
    (hfuel : 2 * Nat.log 2 (ops.length + 1) < fuel) :
    ∃ m' t, ops.foldlM (functionStep fn fuel) m = some m' ∧ SortsFunctions fn functions m' t ∧
      ∀ addr, cuFindFunctionAtAddr fn addr (2 * Nat.log 2 (functions.card + 1) + 1) m' =
        some (t.lookup fun f => functionSide addr (fn f)) := by
  suffices hall : functions.card ≤ ops.length ∧ ∃ m' t,
      ops.foldlM (functionStep fn fuel) m = some m' ∧ SortsFunctions fn functions m' t by
    obtain ⟨-, m', t, hrun, hsorts⟩ := hall
    exact ⟨m', t, hrun, hsorts,
      cuFindFunctionAtAddr_spec hsorts.represents hsorts.balanced hsorts.length_eq.le⟩
  induction ops using List.reverseRecOn generalizing functions with
  | nil =>
      obtain rfl := Option.some.inj hops
      exact ⟨le_rfl, m, .leaf, rfl, ⟨hempty, trivial, List.nodup_nil⟩, ⟨0, .leaf⟩, .nil, rfl⟩
  | append_singleton ops op ih =>
      rw [List.foldlM_append] at hops
      obtain ⟨functions₁, hops₁, hop⟩ := Option.bind_eq_some_iff.mp hops
      have hop' : op.apply functions₁ = some functions := by
        obtain ⟨functions₂, hop₂, hlast⟩ := Option.bind_eq_some_iff.mp hop
        rwa [← Option.some.inj hlast]
      have hlog : 2 * Nat.log 2 (ops.length + 1) < fuel := by
        refine lt_of_le_of_lt (Nat.mul_le_mul_left 2 (Nat.log_mono_right ?_)) hfuel
        rw [List.length_append]
        omega
      obtain ⟨hcard, m₁, t₁, hrun₁, hsorts⟩ := ih hops₁ hlog
      have hheight := hsorts.balanced.height_le_of_le (hsorts.length_eq.trans_le hcard)
      obtain ⟨m', t', hrun, hsorts'⟩ := functionStep_spec hsorts hop' (hheight.trans_lt hlog)
      refine ⟨?_, m', t', ?_, hsorts'⟩
      · rw [List.length_append]
        exact (card_le_of_apply hop').trans (Nat.succ_le_succ hcard)
      · rw [List.foldlM_append, hrun₁]
        change (functionStep fn fuel m₁ op >>= pure) = _
        rw [hrun]
        rfl

/-- After three insertions and the erasure of the function in the middle, two functions are
sorted. -/
theorem functions_stay_sorted_three : ∃ m' t,
    [FunctionOp.add 1, .add 0, .add 2, .remove 1].foldlM
        (functionStep (fun i : Fin 3 => ⟨none, 16 * i.val.toUInt64, 16⟩) 5)
        ⟨none, fun _ => ⟨none, false, none, none⟩⟩ = some m' ∧
      SortsFunctions (fun i : Fin 3 => ⟨none, 16 * i.val.toUInt64, 16⟩) {0, 2} m' t ∧
      ∀ addr, cuFindFunctionAtAddr (fun i : Fin 3 => ⟨none, 16 * i.val.toUInt64, 16⟩) addr
          (2 * Nat.log 2 (Finset.card {0, 2} + 1) + 1) m' =
        some (t.lookup fun f => functionSide addr ⟨none, 16 * f.val.toUInt64, 16⟩) :=
  functions_stay_sorted rfl (by decide) (by decide)

end Functions

end RbMem

end Pahole

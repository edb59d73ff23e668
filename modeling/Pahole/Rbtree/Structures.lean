import Pahole.Pahole.SortOrders
import Pahole.Rbtree.Functions
import Pahole.Rbtree.Walk
import Pahole.Support.KeyedTrees

/-!
# Sorted output on the nodes of trees

`structures__add` and `resort_classes` put the structs one after the other into a red-black tree,
and `__print_ordered_classes` goes through its nodes.  What is printed is what the model of sorted
output prints, which leaves it open how the trees are balanced.
-/

namespace Pahole

open SearchTree SortOutput

/-- `Added` does not depend on the shape of the tree. -/
theorem SortOutput.Added.congr {order : SortType → SortType → Ordering} {xs : List SortType}
    {s s' : Structures} (h : Added order xs s) (htree : s'.tree.inorder = s.tree.inorder)
    (hlist : s'.list = s.list) (hneed : s'.needResort = s.needResort) : Added order xs s' where
  sorted := by rw [htree]; exact h.sorted
  perm := by rw [htree, hlist]; exact h.perm
  sublist := by rw [hlist]; exact h.sublist
  cover := by rw [hlist]; exact h.cover
  once := by rw [hlist]; exact h.once
  needResort := by rw [hneed]; exact h.needResort

namespace RbMem

variable {N : Type*} [DecidableEq N]

omit [DecidableEq N] in
/-- The `while` of `__structures__add` and of `resort_add`: the nodes passed, and the parent
with its pointer to the new node, unless there is an equal one. -/
def addLoop (compare : N → Option Ordering) : ℕ → RbMem N → Option N → RbLink N →
    Option (List N × Option (Option N × RbLink N))
  | 0, _, _, _ => none
  | fuel + 1, m, parent, p =>
      match m.read p with
      | none => some ([], some (parent, p))
      | some node =>
          match compare node with
          | none => none
          | some .gt =>
              (addLoop compare fuel m (some node) (.child .left node)).map
                fun r => (node :: r.1, r.2)
          | some .lt =>
              (addLoop compare fuel m (some node) (.child .right node)).map
                fun r => (node :: r.1, r.2)
          | some .eq => some ([node], none)

/-- `rb_link_node` and `rb_insert_color`, unless an equal node has been found. -/
def linkNew (fuel : ℕ) (m : RbMem N) (str : N) : Option (Option N × RbLink N) → Option (RbMem N)
  | none => some m
  | some (parent, p) => (m.rbLinkNode str parent p).rbInsertColor fuel str

/-- `structures__tree`, `structures__list` and `need_resort` -/
structure NodeStructures (N : Type*) where
  tree : RbMem N
  list : List N
  needResort : Bool

variable (type : N → SortType)

/-- `__structures__add`, where `str` is what `structure__new` would return -/
def structuresAdd (fuel : ℕ) (s : NodeStructures N) (str : N) : Option (NodeStructures N) := do
  let (passed, place) ←
    addLoop (fun node => (typeCompare (type node) (type str)).map Prod.fst) fuel s.tree none .root
  let tree ← linkNew fuel s.tree str place
  some
    { tree := tree
      list := if place.isNone then s.list else s.list ++ [str]
      needResort := s.needResort ||
        passed.any fun node => typeCompare (type node) (type str) = some (.gt, true) }

/-- `resort_add` -/
def resortAdd (fuel : ℕ) (m : RbMem N) (str : N) : Option (RbMem N) := do
  let (_, place) ←
    addLoop (fun node => typeCompareMembersTypes (type node) (type str)) fuel m none .root
  linkNew fuel m str place

/-- `print_ordered_classes` -/
def printOrdered (fuel rounds : ℕ) (s : NodeStructures N) : Option (List N) :=
  if s.needResort then do
    let tree ← s.list.foldlM (resortAdd type fuel) { s.tree with root := none }
    printOrderedClasses fuel rounds tree
  else printOrderedClasses fuel rounds s.tree

/-- `pahole --sort`, of the structs that the filter lets through. -/
def sortOutput (fuel rounds : ℕ) (m : RbMem N) (strs : List N) : Option (List N) := do
  let s ← strs.foldlM (structuresAdd type fuel) ⟨{ m with root := none }, [], false⟩
  printOrdered type fuel rounds s

variable {type}

section Resort

variable {m : RbMem N} {path : List (Frame N)} {t : SearchTree N} {x : N} {fuel rounds : ℕ}
  {compare : N → Option Ordering} {values : List N} {type : N → SortType} {list : List N}
  {balance : SearchTree SortType → SearchTree SortType} {s : SearchTree SortType}
  {order order' : SortType → SortType → Ordering} [Std.TransCmp order] [Std.TransCmp order']

omit [DecidableEq N] in
/-- The way down is the one in the tree, and ends where the tree with the node has it. -/
theorem addLoop_spec {result : Option (SearchTree N)} (h : m.Represents (plug path t))
    (hfuel : t.height < fuel) (hlink : t.link compare x = some (values, result)) :
    ∃ place, addLoop compare fuel m (parentOf path) (linkOf path) = some (values, place) ∧
      (result = none → place = none) ∧ ∀ linked, result = some linked → ∃ path',
        place = some (parentOf path', linkOf path') ∧ plug path' .leaf = plug path t ∧
          plug path' (.node true .leaf x .leaf) = plug path linked ∧
            path'.length ≤ path.length + t.height := by
  induction t generalizing path fuel values result with
  | leaf =>
      obtain ⟨fuel, rfl⟩ : ∃ k, fuel = k + 1 := ⟨fuel - 1, by rw [height] at hfuel; omega⟩
      cases hlink
      refine ⟨some (parentOf path, linkOf path), ?_,
        fun hnone => absurd hnone (Option.some_ne_none _),
        fun linked hlinked => ?_⟩
      · rw [addLoop, (represents_plug.mp h).1.1.read]
        rfl
      · cases hlinked
        exact ⟨path, rfl, rfl, rfl, le_rfl⟩
  | node red left f right ihl ihr =>
      rw [height] at hfuel
      obtain ⟨fuel, rfl⟩ : ∃ k, fuel = k + 1 := ⟨fuel - 1, by omega⟩
      have hleft : m.Represents (plug (⟨.left, red, f, right⟩ :: path) left) := h
      have hright : m.Represents (plug (⟨.right, red, f, left⟩ :: path) right) := h
      have hfuelLeft : left.height < fuel := by omega
      have hfuelRight : right.height < fuel := by omega
      rw [addLoop, (represents_plug.mp h).1.1.read, height]
      rw [link] at hlink
      dsimp only [top?]
      cases hcompare : compare f with
      | none =>
          rw [hcompare] at hlink
          cases hlink
      | some o =>
          rw [hcompare] at hlink
          cases o with
          | gt =>
              obtain ⟨⟨values', result'⟩, hside, heq⟩ := Option.map_eq_some_iff.mp hlink
              obtain ⟨rfl, rfl⟩ := Prod.mk.inj heq
              obtain ⟨place, hrun, hnone, hsome⟩ := ihl hleft hfuelLeft hside
              refine ⟨place, ?_, fun heq => hnone (Option.map_eq_none_iff.mp heq), fun linked heq => ?_⟩
              · change Option.map _ (addLoop compare fuel m (parentOf (⟨.left, red, f, right⟩ :: path))
                  (linkOf (⟨.left, red, f, right⟩ :: path))) = _
                rw [hrun]
                rfl
              · obtain ⟨linked', hlinked', rfl⟩ := Option.map_eq_some_iff.mp heq
                obtain ⟨path', hplace, hplug, hlinked, hlength⟩ := hsome linked' hlinked'
                rw [List.length_cons] at hlength
                exact ⟨path', hplace, hplug, hlinked, by omega⟩
          | lt =>
              obtain ⟨⟨values', result'⟩, hside, heq⟩ := Option.map_eq_some_iff.mp hlink
              obtain ⟨rfl, rfl⟩ := Prod.mk.inj heq
              obtain ⟨place, hrun, hnone, hsome⟩ := ihr hright hfuelRight hside
              refine ⟨place, ?_, fun heq => hnone (Option.map_eq_none_iff.mp heq), fun linked heq => ?_⟩
              · change Option.map _ (addLoop compare fuel m (parentOf (⟨.right, red, f, left⟩ :: path))
                  (linkOf (⟨.right, red, f, left⟩ :: path))) = _
                rw [hrun]
                rfl
              · obtain ⟨linked', hlinked', rfl⟩ := Option.map_eq_some_iff.mp heq
                obtain ⟨path', hplace, hplug, hlinked, hlength⟩ := hsome linked' hlinked'
                rw [List.length_cons] at hlength
                exact ⟨path', hplace, hplug, hlinked, by omega⟩
          | eq =>
              cases hlink
              exact ⟨none, rfl, fun _ => rfl, fun linked hlinked => by cases hlinked⟩

/-- A new node is linked where the way down ends, and an equal one leaves the tree as it is. -/
theorem linkNew_spec {result : Option (SearchTree N)} (h : m.Represents t) (hbalanced : t.Balanced)
    (hnew : x ∉ t.inorder) (hfuel : t.height < fuel)
    (hlink : t.link compare x = some (values, result)) :
    ∃ place m' t', addLoop compare fuel m none .root = some (values, place) ∧
      linkNew fuel m x place = some m' ∧ place.isNone = result.isNone ∧ m'.Represents t' ∧
        t'.Balanced ∧ t'.inorder = (result.getD t).inorder := by
  have hroot : m.Represents (plug [] t) := h
  obtain ⟨place, hrun, hnone, hsome⟩ := addLoop_spec hroot hfuel hlink
  cases result with
  | none =>
      obtain rfl := hnone rfl
      exact ⟨none, m, t, hrun, rfl, rfl, h, hbalanced, rfl⟩
  | some linked =>
      obtain ⟨path, rfl, hplug, hlinked, hlength⟩ := hsome linked rfl
      have hperm := around_perm_of_plug hplug
      rw [List.length_nil, Nat.zero_add] at hlength
      obtain ⟨m', t', hcolor, hrep, hbalanced', hinorder, -⟩ :=
        rbLinkNode_insertColor (hplug.symm ▸ hroot) (hplug.symm ▸ hbalanced)
          (fun hmem => hnew (hperm.mem_iff.mpr hmem)) (hlength.trans_lt hfuel)
      refine ⟨_, m', t', hrun, hcolor, rfl, hrep, hbalanced', ?_⟩
      rw [hinorder, hlinked]
      rfl

/-- A struct that is a duplicate changes nothing, and another one is linked where it belongs. -/
theorem resortAdd_spec (h : m.Represents t) (hbalanced : t.Balanced) (hnew : x ∉ t.inorder)
    (hfuel : t.height < fuel) {result : Option (SearchTree N)}
    (hlink : t.link (fun v => typeCompareMembersTypes (type v) (type x)) x = some (values, result)) :
    ∃ m' t', resortAdd type fuel m x = some m' ∧ m'.Represents t' ∧ t'.Balanced ∧
      t'.inorder = (result.getD t).inorder := by
  obtain ⟨place, m', t', hrun, hnew, -, hrest⟩ := linkNew_spec h hbalanced hnew hfuel hlink
  refine ⟨m', t', ?_, hrest⟩
  change (addLoop _ fuel m none .root >>= fun r => linkNew fuel m x r.2) = _
  rw [hrun]
  exact hnew

/-- The structs of a list are put into the tree of the nodes as they are into a tree of the model
that has another shape. -/
theorem resortClasses_spec {n : ℕ} (hbalance : ∀ s, (balance s).inorder = s.inorder)
    (h : m.Represents t) (hbalanced : t.Balanced) (hkeys : t.inorder.map type = s.inorder)
    (hasc : Ascending order' s.inorder) (hnodup : (t.inorder ++ list).Nodup)
    (htree : ∀ v ∈ s.inorder, ∀ y ∈ list.map type,
      typeCompareMembersTypes v y = some (order' v y))
    (hlist : (list.map type).Pairwise fun a b =>
      typeCompareMembersTypes a b = some (order' a b))
    (hn : t.inorder.length + list.length ≤ n) (hfuel : 2 * Nat.log 2 (n + 1) < fuel) :
    ∃ m' t' s', list.foldlM (resortAdd type fuel) m = some m' ∧ m'.Represents t' ∧ t'.Balanced ∧
      insertAll balance typeCompareMembersTypes s (list.map type) = some s' ∧
      t'.inorder.map type = s'.inorder ∧ t'.inorder.length ≤ n := by
  induction list generalizing m t s with
  | nil => exact ⟨m, t, s, rfl, h, hbalanced, rfl, hkeys, hn⟩
  | cons x list ih =>
      rw [List.length_cons] at hn
      have hheight : t.height < fuel :=
        (hbalanced.height_le_of_le (by omega)).trans_lt hfuel
      have hnew : x ∉ t.inorder := fun hmem =>
        (List.nodup_append'.mp hnodup).2.2 hmem List.mem_cons_self
      rw [List.map_cons, List.pairwise_cons] at hlist
      have htreeList : ∀ v ∈ s.inorder, ∀ y ∈ list.map type,
          typeCompareMembersTypes v y = some (order' v y) :=
        fun v hv y hy => htree v hv y (List.mem_cons_of_mem _ hy)
      rcases link_map_eq hkeys hasc fun v hv => htree v hv (type x) List.mem_cons_self with
        ⟨_, _, hlink, hlink'⟩ | ⟨_, _, linked, linked', hlink, hlink', hkeys', hasc', hpermT, hpermS⟩
      · obtain ⟨m₁, t₁, hrun₁, hrep₁, hbalanced₁, hinorder₁⟩ :=
          resortAdd_spec h hbalanced hnew hheight hlink
        rw [Option.getD_none] at hinorder₁
        have hnodup₁ : (t₁.inorder ++ list).Nodup := by
          rw [hinorder₁]
          exact hnodup.sublist ((List.sublist_cons_self x list).append_left _)
        have hkeys₁ : t₁.inorder.map type = s.inorder := by rw [hinorder₁, hkeys]
        have hn₁ : t₁.inorder.length + list.length ≤ n := by
          rw [hinorder₁]
          omega
        obtain ⟨m', t', s', hrun, hrep, hbal, hinsert, hresult⟩ :=
          ih hrep₁ hbalanced₁ hkeys₁ hasc hnodup₁ htreeList hlist.2 hn₁
        refine ⟨m', t', s', ?_, hrep, hbal, ?_, hresult⟩
        · rw [List.foldlM_cons, hrun₁]
          exact hrun
        · rw [List.map_cons, insertAll, SearchTree.insert, hlink']
          exact hinsert
      · obtain ⟨m₁, t₁, hrun₁, hrep₁, hbalanced₁, hinorder₁⟩ :=
          resortAdd_spec h hbalanced hnew hheight hlink
        rw [Option.getD_some] at hinorder₁
        rw [← hinorder₁] at hkeys' hpermT
        have hnodup₁ : (t₁.inorder ++ list).Nodup :=
          ((hpermT.append_right list).nodup_iff).mpr (List.perm_middle.nodup_iff.mp hnodup)
        have hkeys₁ : t₁.inorder.map type = (balance linked').inorder := by rw [hbalance, hkeys']
        have hasc₁ : Ascending order' (balance linked').inorder := by rwa [hbalance]
        have htree₁ : ∀ v ∈ (balance linked').inorder, ∀ y ∈ list.map type,
            typeCompareMembersTypes v y = some (order' v y) := by
          intro v hv
          rw [hbalance, hpermS.mem_iff] at hv
          exact List.forall_mem_cons.mpr ⟨hlist.1, htreeList⟩ v hv
        have hn₁ : t₁.inorder.length + list.length ≤ n := by
          rw [hpermT.length_eq, List.length_cons]
          omega
        obtain ⟨m', t', s', hrun, hrep, hbal, hinsert, hresult⟩ :=
          ih hrep₁ hbalanced₁ hkeys₁ hasc₁ hnodup₁ htree₁ hlist.2 hn₁
        refine ⟨m', t', s', ?_, hrep, hbal, ?_, hresult⟩
        · rw [List.foldlM_cons, hrun₁]
          exact hrun
        · rw [List.map_cons, insertAll, SearchTree.insert, hlink']
          exact hinsert

/-- The memory has a balanced tree of the nodes of the list, whose types are those that the
model has `Added`. -/
structure Simulates (order : SortType → SortType → Ordering) (type : N → SortType)
    (nodes : NodeStructures N) (t : SearchTree N) (xs : List SortType) : Prop where
  represents : nodes.tree.Represents t
  balanced : t.Balanced
  perm : t.inorder.Perm nodes.list
  added : Added order xs ⟨t.map type, nodes.list.map type, nodes.needResort⟩

variable {nodes : NodeStructures N} {xs : List SortType}

/-- One struct is added. -/
theorem Simulates.step (h : Simulates order type nodes t xs) (hnew : x ∉ nodes.list)
    (hsorts : (xs ++ [type x]).Pairwise (Sorts order)) (hfuel : t.height < fuel) :
    ∃ nodes' t', structuresAdd type fuel nodes x = some nodes' ∧
      Simulates order type nodes' t' (xs ++ [type x]) ∧ nodes'.list.Sublist (nodes.list ++ [x]) := by
  have hnewTree : x ∉ t.inorder := fun hmem => hnew (h.perm.mem_iff.mp hmem)
  have hlinkMap : (t.map type).link (fun v => (typeCompare v (type x)).map Prod.fst) (type x) =
    (t.link (fun v => (typeCompare (type v) (type x)).map Prod.fst) x).map
      fun r => (r.1.map type, r.2.map (SearchTree.map type)) := link_map
  have hid : ∀ s : SearchTree SortType, (id s).inorder = s.inorder := fun _ => rfl
  obtain ⟨s₁, hs₁, hadded⟩ := h.added.step hid hsorts
  rw [SortOutput.structuresAdd, hlinkMap] at hs₁
  cases hlink : t.link (fun v => (typeCompare (type v) (type x)).map Prod.fst) x with
  | none =>
      rw [hlink] at hs₁
      cases hs₁
  | some r =>
      obtain ⟨values, result⟩ := r
      rw [hlink] at hs₁
      obtain ⟨place, m', t', hloop, hlinkNew, hplace, hrep, hbalanced, hinorder⟩ :=
        linkNew_spec h.represents h.balanced hnewTree hfuel hlink
      refine ⟨⟨m', if place.isNone then nodes.list else nodes.list ++ [x], nodes.needResort ||
        values.any fun node => typeCompare (type node) (type x) = some (.gt, true)⟩, t', ?_, ?_⟩
      · change (addLoop _ fuel nodes.tree none .root >>= fun r =>
          linkNew fuel nodes.tree x r.2 >>= fun tree => some _) = _
        rw [hloop, Option.bind_eq_bind, Option.bind_some]
        dsimp only
        rw [hlinkNew]
        rfl
      cases result with
      | none =>
          obtain rfl := Option.some.inj hs₁
          rw [hplace]
          rw [Option.getD_none] at hinorder
          refine ⟨⟨hrep, hbalanced, ?_, hadded.congr ?_ rfl ?_⟩, List.sublist_append_left _ _⟩
          · rw [hinorder]
            exact h.perm
          · rw [inorder_map, inorder_map, hinorder]
          · dsimp only
            rw [List.any_map]
            rfl
      | some linked =>
          obtain rfl := Option.some.inj hs₁
          rw [hplace]
          rw [Option.getD_some] at hinorder
          refine ⟨⟨hrep, hbalanced, ?_, hadded.congr ?_ ?_ ?_⟩, List.Sublist.refl _⟩
          · rw [hinorder]
            refine (link_perm hlink).trans ((h.perm.cons x).trans ?_)
            exact (List.perm_append_singleton x nodes.list).symm
          · dsimp only [id]
            rw [inorder_map, inorder_map, hinorder]
          · exact List.map_append
          · dsimp only
            rw [List.any_map]
            rfl

/-- Structs are added one after the other. -/
theorem Simulates.run {n : ℕ} {strs : List N} (h : Simulates order type nodes t xs)
    (hnodup : (nodes.list ++ strs).Nodup) (hsorts : (xs ++ strs.map type).Pairwise (Sorts order))
    (hn : nodes.list.length + strs.length ≤ n) (hfuel : 2 * Nat.log 2 (n + 1) < fuel) :
    ∃ nodes' t', strs.foldlM (structuresAdd type fuel) nodes = some nodes' ∧
      Simulates order type nodes' t' (xs ++ strs.map type) ∧
        nodes'.list.Sublist (nodes.list ++ strs) := by
  induction strs generalizing nodes t xs with
  | nil =>
      rw [List.map_nil, List.append_nil, List.append_nil]
      exact ⟨nodes, t, rfl, h, List.Sublist.refl _⟩
  | cons x strs ih =>
      rw [List.length_cons] at hn
      have hnew : x ∉ nodes.list := fun hmem =>
        (List.nodup_append'.mp hnodup).2.2 hmem List.mem_cons_self
      rw [List.map_cons, List.append_cons] at hsorts
      have hheight : t.height < fuel := by
        refine (h.balanced.height_le_of_le ?_).trans_lt hfuel
        rw [h.perm.length_eq]
        omega
      obtain ⟨nodes₁, t₁, hrun₁, hsim₁, hsublist₁⟩ :=
        h.step hnew (List.pairwise_append.mp hsorts).1 hheight
      have hrest : (nodes₁.list ++ strs).Sublist (nodes.list ++ x :: strs) := by
        rw [List.append_cons]
        exact hsublist₁.append_right strs
      have hlength := hrest.length_le
      rw [List.length_append, List.length_append, List.length_cons] at hlength
      obtain ⟨nodes', t', hrun, hsim, hsublist⟩ :=
        ih hsim₁ (hnodup.sublist hrest) hsorts (by omega)
      refine ⟨nodes', t', ?_, ?_, hsublist.trans hrest⟩
      · rw [List.foldlM_cons, hrun₁]
        exact hrun
      · rw [List.map_cons, List.append_cons]
        exact hsim

omit [Std.TransCmp order] in
/-- Printing from the nodes gives what the model prints from trees of the same structs. -/
theorem Simulates.print {n : ℕ} (hbalance : ∀ s, (balance s).inorder = s.inorder)
    (h : Simulates order type nodes t xs)
    (hresorts : Distinct order xs ∨ xs.Pairwise (Resorts order')) (hnodup : nodes.list.Nodup)
    (hn : nodes.list.length ≤ n) (hfuel : 2 * Nat.log 2 (n + 1) < fuel) (hrounds : n < rounds) :
    ∃ printed, printOrdered type fuel rounds nodes = some printed ∧
      SortOutput.printOrderedClasses balance
        ⟨t.map type, nodes.list.map type, nodes.needResort⟩ = some (printed.map type) := by
  rw [printOrdered, SortOutput.printOrderedClasses]
  cases hneed : nodes.needResort with
  | false =>
      have hlength := h.perm.length_eq.trans_le hn
      refine ⟨t.inorder, ?_, ?_⟩
      · exact printOrderedClasses_spec h.represents
          ((h.balanced.height_le_of_le hlength).trans_lt hfuel) (hlength.trans_lt hrounds)
      · rw [if_neg Bool.false_ne_true, inorder_map]
  | true =>
      have hresort := hresorts.resolve_left (h.added.needResort.mp hneed)
      have hcompare : (nodes.list.map type).Pairwise fun a b =>
          typeCompareMembersTypes a b = some (order' a b) :=
        (hresort.imp Resorts.compare).sublist h.added.sublist
      have hempty : ({ nodes.tree with root := none } : RbMem N).Represents .leaf :=
        ⟨rfl, trivial, List.nodup_nil⟩
      obtain ⟨m', t', s', hrun, hrep, hbalanced, hinsert, hkeys, hlength⟩ :=
        resortClasses_spec (s := .leaf) hbalance hempty ⟨0, .leaf⟩ rfl List.Pairwise.nil hnodup
          (fun _ hv => absurd hv List.not_mem_nil) hcompare ((Nat.zero_add _).trans_le hn) hfuel
      refine ⟨t'.inorder, ?_, ?_⟩
      · rw [if_pos rfl]
        change (nodes.list.foldlM (resortAdd type fuel) { nodes.tree with root := none } >>=
          printOrderedClasses fuel rounds) = _
        rw [hrun]
        exact printOrderedClasses_spec hrep
          ((hbalanced.height_le_of_le hlength).trans_lt hfuel) (hlength.trans_lt hrounds)
      · rw [if_pos rfl, hinsert, Option.map_some, hkeys]

/-- Sorted output from red-black trees in memory prints what the sorted output of the model
does, for every way to balance the trees of the model. -/
theorem sortOutput_eq_model (hbalance : ∀ s, (balance s).inorder = s.inorder)
    {classFilter : SortType → Bool} {cus : List (List SortType)} {strs : List N}
    (hstrs : strs.map type = insertedTypes classFilter cus) (hnodup : strs.Nodup)
    (hsortable : Sortable (insertedTypes classFilter cus))
    (hfuel : 2 * Nat.log 2 (strs.length + 1) < fuel) (hrounds : strs.length < rounds) :
    ∃ printed printed', sortOutput type fuel rounds m strs = some printed ∧
      SortOutput.sortOutput balance classFilter cus = some printed' ∧
        (printed.map type).map fullKey = printed'.map fullKey := by
  obtain ⟨order, _, hsorts, hrest⟩ := hsortable
  obtain ⟨order', _, hresorts⟩ : ∃ order' : SortType → SortType → Ordering,
      ∃ _ : Std.TransCmp order', Distinct order (insertedTypes classFilter cus) ∨
        (insertedTypes classFilter cus).Pairwise (Resorts order') := by
    rcases hrest with hdistinct | ⟨order', htrans, hresorts⟩
    · exact ⟨order, inferInstance, Or.inl hdistinct⟩
    · exact ⟨order', htrans, Or.inr hresorts⟩
  have hstart : Simulates order type ⟨{ m with root := none }, [], false⟩ .leaf [] :=
    ⟨⟨rfl, trivial, List.nodup_nil⟩, ⟨0, .leaf⟩, List.Perm.refl _, Added.empty⟩
  have hsorts' : ([] ++ strs.map type).Pairwise (Sorts order) := by
    rw [List.nil_append, hstrs]
    exact hsorts
  obtain ⟨nodes, t, hrun, hsim, hsublist⟩ :=
    hstart.run hnodup hsorts' (Nat.zero_add _).le hfuel
  rw [List.nil_append] at hsim hsublist
  rw [hstrs] at hsim
  obtain ⟨printed, hprint, hmodel⟩ := hsim.print hbalance hresorts (hnodup.sublist hsublist)
    hsublist.length_le hfuel hrounds
  obtain ⟨printed₁, hprinted₁, hfirst₁, hsecond₁⟩ := hsim.added.printed hbalance hresorts
  obtain rfl := Option.some.inj (hmodel.symm.trans hprinted₁)
  obtain ⟨printed', hprinted', hfirst, hsecond⟩ := sortOutput_printed hbalance hsorts hresorts
  refine ⟨printed, printed', ?_, hprinted', ?_⟩
  · change (strs.foldlM (structuresAdd type fuel) ⟨{ m with root := none }, [], false⟩ >>=
      printOrdered type fuel rounds) = _
    rw [hrun]
    exact hprint
  · by_cases hdistinct : Distinct order (insertedTypes classFilter cus)
    · exact (hfirst₁ hdistinct).unique (hfirst hdistinct) (List.Perm.refl _)
        fun a ha b hb => Distinct.eq_iff hsorts hdistinct ha hb
    · exact (hsecond₁ hdistinct).unique (hsecond hdistinct) (List.Perm.refl _)
        fun a ha b hb => Resorts.eq_iff (hresorts.resolve_left hdistinct) ha hb

/-- Two CUs that have one struct. -/
theorem sortOutput_eq_model_fooOne : ∃ printed printed',
    sortOutput (fun _ : Fin 2 => fooOne) 3 3 ⟨none, fun _ => ⟨none, false, none, none⟩⟩ [0, 1] =
        some printed ∧
      SortOutput.sortOutput blackenRoot (fun _ => true) [[fooOne], [fooOne]] = some printed' ∧
        (printed.map fun _ => fooOne).map fullKey = printed'.map fullKey :=
  sortOutput_eq_model inorder_blackenRoot rfl (by decide) sortable_fooOne (by decide) (by decide)

end Resort

end RbMem

end Pahole

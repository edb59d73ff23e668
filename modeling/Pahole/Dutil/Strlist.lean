import Mathlib.Data.List.TakeWhile
import Mathlib.Tactic
import Pahole.Support.InsertionOrder
import Pahole.Support.TreeLookup

/-!
# Lists of strings

A `strlist` keeps its strings in a red-black tree, by which they are found, and in a list,
which says in which order they have come.  Every operation changes both.

The strings that a list refers to without a copy of its own are taken not to change while
they are there.
-/

namespace Pahole

open InsertionOrder

/-- A C string, without the byte that ends it. -/
@[ext]
structure CStr where
  bytes : List UInt8
  noNul : 0 ∉ bytes
deriving DecidableEq

namespace CStr

/-- The string that a buffer with these bytes holds. -/
def ofBytes (bytes : List UInt8) : CStr where
  bytes := bytes.takeWhile (· != 0)
  noNul := fun h => by simpa using List.mem_takeWhile_imp h

theorem ofBytes_of_noNul {bytes : List UInt8} (h : 0 ∉ bytes) : (ofBytes bytes).bytes = bytes := by
  refine List.takeWhile_eq_self_iff.mpr fun b hb => ?_
  simpa using ne_of_mem_of_not_mem hb h

/-- The difference of the first bytes that differ, where the end of a string is a zero. -/
def diff : List UInt8 → List UInt8 → ℤ
  | [], [] => 0
  | [], b :: _ => -b.toNat
  | a :: _, [] => a.toNat
  | a :: as, b :: bs => if a = b then diff as bs else a.toNat - b.toNat

/-- `strcmp` -/
def strcmp (a b : CStr) : ℤ :=
  diff a.bytes b.bytes

end CStr

/-- `struct str_node`, with a string and what is kept along with it. -/
structure StrNode where
  s : CStr
  priv : ℕ
deriving DecidableEq

/-- Whether the two allocations for a new node succeed. -/
structure Memory where
  malloc : Bool
  strdup : Bool

/-- `str_node__new` -/
def strNodeNew (mem : Memory) (s : CStr) (dupstr : Bool) : Option StrNode :=
  if mem.malloc then
    if dupstr && !mem.strdup then none else some { s := s, priv := 0 }
  else none

/-- The allocations of a node have succeeded. -/
def Memory.Suffices (mem : Memory) (dupstr : Bool) : Prop :=
  mem.malloc = true ∧ (dupstr = true → mem.strdup = true)

instance (mem : Memory) (dupstr : Bool) : Decidable (mem.Suffices dupstr) :=
  inferInstanceAs (Decidable (_ ∧ _))

theorem strNodeNew_of_suffices {mem : Memory} {s : CStr} {dupstr : Bool}
    (h : mem.Suffices dupstr) : strNodeNew mem s dupstr = some { s := s, priv := 0 } := by
  obtain ⟨hmalloc, hstrdup⟩ := h
  rw [strNodeNew, if_pos hmalloc]
  cases dupstr with
  | false => rfl
  | true => simp [hstrdup rfl]

theorem strNodeNew_of_not_suffices {mem : Memory} {s : CStr} {dupstr : Bool}
    (h : ¬mem.Suffices dupstr) : strNodeNew mem s dupstr = none := by
  by_cases hmalloc : mem.malloc = true
  · obtain ⟨hdup, hstrdup⟩ := Classical.not_imp.mp fun hall => h ⟨hmalloc, hall⟩
    simp [strNodeNew, hmalloc, hdup, hstrdup]
  · rw [strNodeNew, if_neg hmalloc]

/-- `rb_insert_color` and `rb_erase`, which turn the tree about but keep the order. -/
structure RbTree where
  insertColor : SearchTree StrNode → SearchTree StrNode
  erase : StrNode → SearchTree StrNode → SearchTree StrNode
  inorder_insertColor : ∀ t, (insertColor t).inorder = t.inorder
  inorder_erase : ∀ sn t, sn ∈ t.inorder → (erase sn t).inorder = t.inorder.erase sn

/-- A red-black tree without recolouring and rotations. -/
def RbTree.plain : RbTree where
  insertColor := id
  erase := fun sn t => .leftSpine (t.inorder.erase sn)
  inorder_insertColor := fun _ => rfl
  inorder_erase := fun _ _ _ => SearchTree.inorder_leftSpine _

/-- `struct strlist` -/
structure Strlist where
  entries : SearchTree StrNode
  listEntries : List StrNode
  dupstr : Bool

/-- `strlist__new` -/
def strlistNew (dupstr : Bool) : Strlist where
  entries := .leaf
  listEntries := []
  dupstr := dupstr

/-- How a node on the way compares to the string that is looked for. -/
def descend (sn : StrNode) (entry : CStr) : Ordering :=
  let rc := CStr.strcmp sn.s entry
  if 0 < rc then .gt else if rc < 0 then .lt else .eq

/-- `__strlist__add`, with its result. -/
def strlistAddPriv (rb : RbTree) (mem : Memory) (slist : Strlist) (newEntry : CStr)
    (priv : ℕ) : ℤ × Strlist :=
  let sn : StrNode := { s := newEntry, priv := priv }
  match (slist.entries.link (fun parent => some (descend parent newEntry)) sn).bind Prod.snd with
  | none => (-17, slist)
  | some linked =>
      match strNodeNew mem newEntry slist.dupstr with
      | none => (-12, slist)
      | some new =>
          (0, { slist with
            entries := rb.insertColor linked
            listEntries := slist.listEntries ++ [{ new with priv := priv }] })

/-- `strlist__add` -/
def strlistAdd (rb : RbTree) (mem : Memory) (slist : Strlist) (newEntry : CStr) : ℤ × Strlist :=
  strlistAddPriv rb mem slist newEntry 0

/-- `strlist__remove`, of a node that is on the list. -/
def strlistRemove (rb : RbTree) (slist : Strlist) (sn : StrNode) : Strlist :=
  { slist with
    entries := rb.erase sn slist.entries
    listEntries := slist.listEntries.erase sn }

/-- `strlist__has_entry` -/
def strlistHasEntry (slist : Strlist) (entry : CStr) : Bool :=
  (slist.entries.lookup fun sn => (descend sn entry).swap).isSome

/-- `strlist__empty` -/
def strlistEmpty (slist : Strlist) : Bool :=
  slist.entries.inorder.isEmpty

/-- `strlist__delete` goes through the tree. -/
def strlistDelete (rb : RbTree) (slist : Strlist) : Strlist :=
  { slist.entries.inorder.foldl (strlistRemove rb) slist with entries := .leaf }

/-! ## The order of the strings -/

namespace CStr

theorem compare_natCast_sub (m n : ℕ) : compare ((m : ℤ) - n) 0 = compare m n := by
  rcases lt_trichotomy m n with h | rfl | h
  · have hneg : (m : ℤ) - n < 0 := by omega
    rw [compare_lt_iff_lt.mpr h, compare_lt_iff_lt.mpr hneg]
  · rw [sub_self, compare_eq_iff_eq.mpr rfl, compare_eq_iff_eq.mpr rfl]
  · have hpos : 0 < (m : ℤ) - n := by omega
    rw [compare_gt_iff_gt.mpr h, compare_gt_iff_gt.mpr hpos]

theorem toNat_pos {b : UInt8} {bs : List UInt8} (h : 0 ∉ b :: bs) : 0 < b.toNat := by
  refine Nat.pos_of_ne_zero fun hzero => h ?_
  rw [List.mem_cons]
  exact Or.inl (UInt8.toNat_inj.mp hzero.symm)

/-- `strcmp` puts strings in the order of their bytes. -/
theorem compare_diff {as bs : List UInt8} (ha : 0 ∉ as) (hb : 0 ∉ bs) :
    compare (diff as bs) 0 = compare as bs := by
  induction as generalizing bs with
  | nil =>
      cases bs with
      | nil => rfl
      | cons b bs =>
          have hneg : -(b.toNat : ℤ) < 0 := by
            have := toNat_pos hb
            omega
          exact compare_lt_iff_lt.mpr hneg
  | cons a as ih =>
      cases bs with
      | nil =>
          have hpos : 0 < (a.toNat : ℤ) := by
            have := toNat_pos ha
            omega
          exact compare_gt_iff_gt.mpr hpos
      | cons b bs =>
          rw [List.compare_eq_compareLex, List.compareLex_cons_cons, diff]
          by_cases hab : a = b
          · have hsame : compare a b = .eq := by rw [hab, Std.ReflOrd.compare_self]
            rw [if_pos hab, hsame,
              ih (List.not_mem_of_not_mem_cons ha) (List.not_mem_of_not_mem_cons hb)]
            rfl
          · have hne : compare a b ≠ .eq := fun heq => hab (Std.LawfulEqOrd.eq_of_compare heq)
            rw [if_neg hab, compare_natCast_sub, ← UInt8.compare_eq_toNat_compare_toNat]
            cases hcase : compare a b <;> simp_all

theorem compare_strcmp (a b : CStr) : compare (strcmp a b) 0 = compare a.bytes b.bytes :=
  compare_diff a.noNul b.noNul

end CStr

/-- Nodes are ordered by their strings. -/
def byString : StrNode → StrNode → Ordering :=
  compareOn fun sn => sn.s.bytes

instance : Std.TransCmp byString :=
  inferInstanceAs (Std.TransCmp (compareOn fun sn : StrNode => sn.s.bytes))

theorem byString_eq_iff {a b : StrNode} : byString a b = .eq ↔ a.s = b.s := by
  constructor
  · intro h
    exact CStr.ext (Std.LawfulEqOrd.eq_of_compare h)
  · intro h
    rw [byString, compareOn, h]
    exact Std.ReflOrd.compare_self

theorem descend_eq (sn : StrNode) (entry : CStr) :
    descend sn entry = compare sn.s.bytes entry.bytes := by
  rw [← CStr.compare_strcmp, descend]
  rcases lt_trichotomy (CStr.strcmp sn.s entry) 0 with h | h | h
  · rw [if_neg h.not_gt, if_pos h, compare_lt_iff_lt.mpr h]
  · rw [if_neg h.not_gt, if_neg h.not_lt, compare_eq_iff_eq.mpr h]
  · rw [if_pos h, compare_gt_iff_gt.mpr h]

/-! ## The tree and the list in step -/

/-- The tree is sorted, and holds the nodes of the list. -/
structure Strlist.InStep (slist : Strlist) : Prop where
  ascending : SearchTree.Ascending byString slist.entries.inorder
  perm : slist.entries.inorder.Perm slist.listEntries

namespace Strlist.InStep

variable {slist : Strlist} {rb : RbTree} {mem : Memory} {newEntry : CStr} {priv : ℕ}

theorem distinct (h : slist.InStep) : Distinct StrNode.s slist.listEntries := by
  have hinorder : (slist.entries.inorder.map StrNode.s).Nodup := by
    refine List.pairwise_map.mpr (h.ascending.imp fun hlt heq => ?_)
    exact absurd (hlt.symm.trans (byString_eq_iff.mpr heq)) (by decide)
  exact (h.perm.map StrNode.s).nodup_iff.mp hinorder

/-- `strlist__has_entry` finds exactly the strings on the list. -/
theorem hasEntry_iff (h : slist.InStep) {entry : CStr} :
    strlistHasEntry slist entry = true ↔ entry ∈ slist.listEntries.map StrNode.s := by
  rw [strlistHasEntry, Option.isSome_iff_exists, List.mem_map]
  constructor
  · rintro ⟨sn, hsn⟩
    obtain ⟨hmem, hside⟩ := SearchTree.lookup_sound hsn
    refine ⟨sn, h.perm.mem_iff.mp hmem, ?_⟩
    rw [Ordering.swap_eq_eq, descend_eq] at hside
    exact CStr.ext (Std.LawfulEqOrd.eq_of_compare hside)
  · rintro ⟨sn, hmem, rfl⟩
    obtain ⟨before, after, hinorder⟩ := List.append_of_mem (h.perm.mem_iff.mpr hmem)
    have hasc := h.ascending
    rw [hinorder, SearchTree.Ascending, List.pairwise_append, List.pairwise_cons] at hasc
    obtain ⟨-, ⟨hafter, -⟩, hbefore⟩ := hasc
    refine ⟨sn, SearchTree.lookup_complete hinorder ?_ (fun v hv => ?_) fun v hv => ?_⟩
    · rw [descend_eq, Std.ReflOrd.compare_self]
      rfl
    · rw [descend_eq, Ordering.swap_eq_gt]
      exact hbefore v hv sn List.mem_cons_self
    · rw [descend_eq, Ordering.swap_eq_lt]
      exact SearchTree.gt_iff_lt.mpr (hafter v hv)

theorem empty_iff (h : slist.InStep) : strlistEmpty slist = true ↔ slist.listEntries = [] := by
  rw [strlistEmpty, List.isEmpty_iff]
  constructor
  · intro hnil
    exact (hnil ▸ h.perm).nil_eq.symm
  · intro hnil
    exact (hnil ▸ h.perm).eq_nil

/-- The descent of an addition links the node, or ends at one with the same string. -/
theorem link (h : slist.InStep) (sn : StrNode) : ∃ path result,
    slist.entries.link (fun parent => some (descend parent sn.s)) sn = some (path, result) ∧
      SearchTree.Linked byString (fun _ => true) sn slist.entries.inorder path result := by
  refine SearchTree.link_spec h.ascending.sorted (fun _ _ _ _ _ => rfl) fun v _ => ?_
  have horder : descend v sn.s = byString v sn := descend_eq v sn.s
  rw [horder, SearchTree.probe]
  cases byString v sn <;> rfl

/-- Adding a string of the list returns `-EEXIST` and changes nothing. -/
theorem add_of_mem (h : slist.InStep) (hmem : newEntry ∈ slist.listEntries.map StrNode.s) :
    strlistAddPriv rb mem slist newEntry priv = (-17, slist) := by
  obtain ⟨path, result, hlink, hspec⟩ := h.link { s := newEntry, priv := priv }
  obtain ⟨v, hv, hs⟩ := List.mem_map.mp hmem
  have hnone : result = none := by
    cases result with
    | none => rfl
    | some linked =>
        have hfresh := (hspec.linked linked rfl).1 v (h.perm.mem_iff.mpr hv)
          (byString_eq_iff.mpr hs)
        exact absurd hfresh (by simp)
  rw [strlistAddPriv, hlink, hnone]
  rfl

/-- The descent for a new string ends at a leaf, where the string is linked. -/
theorem exists_linked (h : slist.InStep) (priv : ℕ)
    (hmem : newEntry ∉ slist.listEntries.map StrNode.s) :
    ∃ path linked, slist.entries.link (fun parent => some (descend parent newEntry))
        { s := newEntry, priv := priv } = some (path, some linked) ∧
      SearchTree.Ascending byString linked.inorder ∧
      linked.inorder.Perm ({ s := newEntry, priv := priv } :: slist.listEntries) := by
  obtain ⟨path, result, hlink, hspec⟩ := h.link { s := newEntry, priv := priv }
  cases result with
  | none =>
      obtain ⟨v, hv, heq, -⟩ := hspec.found rfl
      have hs : v.s = newEntry := byString_eq_iff.mp heq
      exact absurd (List.mem_map.mpr ⟨v, h.perm.mem_iff.mp hv, hs⟩) hmem
  | some linked =>
      refine ⟨path, linked, hlink, hspec.ascending h.ascending h.ascending.sorted rfl, ?_⟩
      exact (hspec.perm rfl).trans (h.perm.cons _)

/-- Without memory for its node a new string is not added. -/
theorem add_of_not_suffices (h : slist.InStep)
    (hmem : newEntry ∉ slist.listEntries.map StrNode.s) (hfail : ¬mem.Suffices slist.dupstr) :
    strlistAddPriv rb mem slist newEntry priv = (-12, slist) := by
  obtain ⟨path, linked, hlink, -⟩ := h.exists_linked priv hmem
  rw [strlistAddPriv, hlink, Option.bind_some, strNodeNew_of_not_suffices hfail]

/-- Adding a new string appends it to the list. -/
theorem add_of_not_mem (h : slist.InStep) (rb : RbTree) (priv : ℕ)
    (hmem : newEntry ∉ slist.listEntries.map StrNode.s) (hsuffices : mem.Suffices slist.dupstr) :
    ∃ entries, strlistAddPriv rb mem slist newEntry priv =
        (0, { slist with
          entries := entries
          listEntries := slist.listEntries ++ [{ s := newEntry, priv := priv }] }) ∧
      Strlist.InStep { slist with
        entries := entries
        listEntries := slist.listEntries ++ [{ s := newEntry, priv := priv }] } := by
  obtain ⟨path, linked, hlink, hasc, hperm⟩ := h.exists_linked priv hmem
  refine ⟨rb.insertColor linked, ?_, ?_, ?_⟩
  · rw [strlistAddPriv, hlink, Option.bind_some, strNodeNew_of_suffices hsuffices]
  · rw [rb.inorder_insertColor]
    exact hasc
  · rw [rb.inorder_insertColor]
    exact hperm.trans (List.perm_append_singleton _ _).symm

theorem remove (h : slist.InStep) {sn : StrNode} (hsn : sn ∈ slist.listEntries) :
    (strlistRemove rb slist sn).InStep := by
  have hinorder : (rb.erase sn slist.entries).inorder = slist.entries.inorder.erase sn :=
    rb.inorder_erase sn slist.entries (h.perm.mem_iff.mpr hsn)
  refine ⟨?_, ?_⟩
  · rw [strlistRemove, hinorder]
    exact h.ascending.sublist List.erase_sublist
  · rw [strlistRemove, hinorder]
    exact h.perm.erase sn

/-- `strlist__delete` leaves no node on the list. -/
theorem delete (h : slist.InStep) : (strlistDelete rb slist).listEntries = [] := by
  have hnodes : ∀ nodes : List StrNode, ∀ slist : Strlist, slist.listEntries.Perm nodes →
      (nodes.foldl (strlistRemove rb) slist).listEntries = [] := by
    intro nodes
    induction nodes with
    | nil => exact fun slist hperm => hperm.eq_nil
    | cons sn nodes ih =>
        intro slist hperm
        refine ih (strlistRemove rb slist sn) ?_
        have herase := hperm.erase sn
        rwa [List.erase_cons_head] at herase
  exact hnodes slist.entries.inorder slist h.perm.symm

end Strlist.InStep

theorem strlistNew_inStep (dupstr : Bool) : (strlistNew dupstr).InStep where
  ascending := List.Pairwise.nil
  perm := List.Perm.refl _

/-! ## Additions and removals -/

/-- An addition or a removal. -/
inductive StrlistOp where
  | add (mem : Memory) (newEntry : CStr) (priv : ℕ)
  | remove (sn : StrNode)

/-- The result and the list afterwards.  There is none for a node that is not on the list,
which has been freed or belongs to another list. -/
def strlistStep (rb : RbTree) (slist : Strlist) : StrlistOp → Option (ℤ × Strlist)
  | .add mem newEntry priv => some (strlistAddPriv rb mem slist newEntry priv)
  | .remove sn => if sn ∈ slist.listEntries then some (0, strlistRemove rb slist sn) else none

/-- One operation after the other. -/
def strlistRun (rb : RbTree) (slist : Strlist) (ops : List StrlistOp) : Option Strlist :=
  ops.foldlM (fun slist op => (strlistStep rb slist op).map Prod.snd) slist

/-- The change to the set of strings that an operation stands for. -/
def StrlistOp.changes (dupstr : Bool) : StrlistOp → List (Change StrNode)
  | .add mem newEntry priv =>
      if mem.Suffices dupstr then [.insert { s := newEntry, priv := priv }] else []
  | .remove sn => [.delete sn]

namespace Strlist

variable {slist next : Strlist} {rb : RbTree} {op : StrlistOp} {ops : List StrlistOp}

/-- The list after an operation is the set after the change. -/
theorem InStep.step_changes (h : slist.InStep) (rb : RbTree) (op : StrlistOp) :
    (strlistStep rb slist op).map (fun r => r.2.listEntries) =
      run StrNode.s slist.listEntries (op.changes slist.dupstr) := by
  cases op with
  | add mem newEntry priv =>
      rw [strlistStep, StrlistOp.changes, Option.map_some]
      by_cases hmem : newEntry ∈ slist.listEntries.map StrNode.s
      · rw [h.add_of_mem hmem]
        by_cases hsuffices : mem.Suffices slist.dupstr
        · rw [if_pos hsuffices, run_singleton, apply,
            insert_of_mem hmem]
        · rw [if_neg hsuffices, run_nil]
      · by_cases hsuffices : mem.Suffices slist.dupstr
        · obtain ⟨entries, hadd, -⟩ := h.add_of_not_mem rb priv hmem hsuffices
          rw [hadd, if_pos hsuffices, run_singleton, apply,
            insert_of_not_mem hmem]
        · rw [h.add_of_not_suffices hmem hsuffices, if_neg hsuffices, run_nil]
  | remove sn =>
      rw [strlistStep, StrlistOp.changes, run_singleton, apply]
      by_cases hsn : sn ∈ slist.listEntries
      · rw [if_pos hsn, if_pos hsn]
        rfl
      · rw [if_neg hsn, if_neg hsn]
        rfl

/-- Every operation keeps the tree and the list in step. -/
theorem InStep.step (h : slist.InStep) {result : ℤ}
    (hstep : strlistStep rb slist op = some (result, next)) :
    next.InStep ∧ next.dupstr = slist.dupstr := by
  cases op with
  | add mem newEntry priv =>
      have hnext : (strlistAddPriv rb mem slist newEntry priv).2 = next :=
        congrArg Prod.snd (Option.some.inj hstep)
      by_cases hmem : newEntry ∈ slist.listEntries.map StrNode.s
      · rw [h.add_of_mem hmem] at hnext
        exact hnext ▸ ⟨h, rfl⟩
      · by_cases hsuffices : mem.Suffices slist.dupstr
        · obtain ⟨entries, hadd, hkept⟩ := h.add_of_not_mem rb priv hmem hsuffices
          rw [hadd] at hnext
          exact hnext ▸ ⟨hkept, rfl⟩
        · rw [h.add_of_not_suffices hmem hsuffices] at hnext
          exact hnext ▸ ⟨h, rfl⟩
  | remove sn =>
      obtain ⟨hsn, hnext⟩ := Option.ite_none_right_eq_some.mp hstep
      obtain rfl : strlistRemove rb slist sn = next := congrArg Prod.snd (Option.some.inj hnext)
      exact ⟨h.remove hsn, rfl⟩

/-- The list after a run of operations is what `run` makes of the changes that they ask for. -/
theorem InStep.run_changes (h : slist.InStep) (rb : RbTree) (ops : List StrlistOp) :
    (strlistRun rb slist ops).map Strlist.listEntries =
      run StrNode.s slist.listEntries (ops.flatMap (StrlistOp.changes slist.dupstr)) := by
  induction ops generalizing slist with
  | nil => rfl
  | cons op ops ih =>
      have hset := h.step_changes rb op
      rw [strlistRun, List.foldlM_cons, List.flatMap_cons, run_append, ← hset]
      cases hstep : strlistStep rb slist op with
      | none => rfl
      | some r =>
          obtain ⟨hkept, hdupstr⟩ := h.step hstep
          rw [← hdupstr]
          exact ih hkept

/-- Every run keeps the tree and the list in step. -/
theorem InStep.run (h : slist.InStep) (hrun : strlistRun rb slist ops = some next) :
    next.InStep ∧ next.dupstr = slist.dupstr := by
  induction ops generalizing slist with
  | nil =>
      obtain rfl := Option.some.inj hrun
      exact ⟨h, rfl⟩
  | cons op ops ih =>
      rw [strlistRun, List.foldlM_cons] at hrun
      obtain ⟨mid, hmid, hrun⟩ := Option.bind_eq_some_iff.mp hrun
      obtain ⟨r, hstep, rfl⟩ := Option.map_eq_some_iff.mp hmid
      obtain ⟨hkept, hdupstr⟩ := h.step hstep
      obtain ⟨hkept', hdupstr'⟩ := ih hkept hrun
      exact ⟨hkept', hdupstr'.trans hdupstr⟩

end Strlist

/-- `strlist__has_entry` is membership in `strings`, the list has as many nodes as `strings` has
elements, and `strlist__add` returns `-EEXIST` exactly for an element. -/
structure Strlist.LooksLike (rb : RbTree) (slist : Strlist) (strings : Finset CStr) : Prop where
  hasEntry : ∀ entry, strlistHasEntry slist entry = true ↔ entry ∈ strings
  size : slist.listEntries.length = strings.card
  empty : strlistEmpty slist = true ↔ strings = ∅
  add : ∀ mem newEntry priv, (strlistAddPriv rb mem slist newEntry priv).1 =
    if newEntry ∈ strings then -17 else if mem.Suffices slist.dupstr then 0 else -12

theorem Strlist.InStep.looksLike {slist : Strlist} {rb : RbTree} (h : slist.InStep) :
    slist.LooksLike rb (keys StrNode.s slist.listEntries) where
  hasEntry := fun entry => by rw [h.hasEntry_iff, mem_keys]
  size := h.distinct.length_eq
  empty := by
    rw [h.empty_iff, keys, List.toFinset_eq_empty_iff, List.map_eq_nil_iff]
  add := fun mem newEntry priv => by
    by_cases hmem : newEntry ∈ slist.listEntries.map StrNode.s
    · rw [if_pos (mem_keys.mpr hmem), h.add_of_mem hmem]
    · rw [if_neg fun hkeys => hmem (mem_keys.mp hkeys)]
      by_cases hsuffices : mem.Suffices slist.dupstr
      · obtain ⟨entries, hadd, -⟩ := h.add_of_not_mem rb priv hmem hsuffices
        rw [if_pos hsuffices, hadd]
      · rw [if_neg hsuffices, h.add_of_not_suffices hmem hsuffices]

/-- After the operations the list holds its strings in the order in which they were added, and
looks like the set that the same additions and removals make. -/
structure ActsAsSet (rb : RbTree) (dupstr : Bool) (ops : List StrlistOp) : Prop where
  order : (strlistRun rb (strlistNew dupstr) ops).map Strlist.listEntries =
    run StrNode.s [] (ops.flatMap (StrlistOp.changes dupstr))
  looksLike : ∀ slist, strlistRun rb (strlistNew dupstr) ops = some slist →
    slist.LooksLike rb ((ops.flatMap (StrlistOp.changes dupstr)).foldl (applyKeys StrNode.s) ∅)

theorem actsAsSet (rb : RbTree) (dupstr : Bool) (ops : List StrlistOp) :
    ActsAsSet rb dupstr ops where
  order := (strlistNew_inStep dupstr).run_changes rb ops
  looksLike := fun slist hrun => by
    have hset := (strlistNew_inStep dupstr).run_changes rb ops
    rw [hrun, Option.map_some] at hset
    have hempty : Distinct StrNode.s (strlistNew dupstr).listEntries := List.nodup_nil
    have hlooks : slist.LooksLike rb (keys StrNode.s slist.listEntries) :=
      ((strlistNew_inStep dupstr).run hrun).1.looksLike
    rw [hempty.run hset.symm] at hlooks
    exact hlooks

end Pahole

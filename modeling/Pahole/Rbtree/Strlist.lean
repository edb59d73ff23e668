import Pahole.Dutil.Strlist
import Pahole.Rbtree.Structures

/-!
# Lists of strings on the nodes of trees

`strlist__add` goes down along the nodes, and a new node is linked and the tree balanced;
`strlist__delete` frees all of them.  A list of strings is the same as in the model that leaves it
open how the trees are balanced.
-/

namespace Pahole

open SearchTree

theorem Strlist.InStep.congr {slist slist' : Strlist} (h : slist.InStep)
    (hentries : slist'.entries.inorder = slist.entries.inorder)
    (hlist : slist'.listEntries = slist.listEntries) : slist'.InStep where
  ascending := by rw [hentries]; exact h.ascending
  perm := by rw [hentries, hlist]; exact h.perm

section Model

variable {slist : Strlist} {rb : RbTree} {mem : Memory} {newEntry : CStr} {priv : ℕ}
  {path : List StrNode} {linked : SearchTree StrNode}

theorem strlistAddPriv_found (h : slist.entries.link (fun parent => some (descend parent newEntry))
    { s := newEntry, priv := priv } = some (path, none)) :
    strlistAddPriv rb mem slist newEntry priv = (-17, slist) := by
  rw [strlistAddPriv, h]
  rfl

theorem strlistAddPriv_noMemory
    (h : slist.entries.link (fun parent => some (descend parent newEntry))
      { s := newEntry, priv := priv } = some (path, some linked))
    (hmem : ¬mem.Suffices slist.dupstr) :
    strlistAddPriv rb mem slist newEntry priv = (-12, slist) := by
  rw [strlistAddPriv, h, Option.bind_some, strNodeNew_of_not_suffices hmem]

theorem strlistAddPriv_linked
    (h : slist.entries.link (fun parent => some (descend parent newEntry))
      { s := newEntry, priv := priv } = some (path, some linked))
    (hmem : mem.Suffices slist.dupstr) :
    strlistAddPriv rb mem slist newEntry priv = (0, { slist with
      entries := rb.insertColor linked
      listEntries := slist.listEntries ++ [{ s := newEntry, priv := priv }] }) := by
  rw [strlistAddPriv, h, Option.bind_some, strNodeNew_of_suffices hmem]

end Model

namespace RbMem

variable {N : Type*} [DecidableEq N]

/-- `struct strlist`, and what the nodes hold. -/
structure NodeStrlist (N : Type*) where
  entries : RbMem N
  listEntries : List N
  dupstr : Bool
  str : N → StrNode

omit [DecidableEq N] in
/-- `strlist__new` -/
def strlistNew (m : RbMem N) (str : N → StrNode) (dupstr : Bool) : NodeStrlist N where
  entries := { m with root := none }
  listEntries := []
  dupstr := dupstr
  str := str

/-- `__strlist__add`, where `new` is the node that `str_node__new` allocates -/
def strlistAddPriv (fuel : ℕ) (mem : Memory) (slist : NodeStrlist N) (new : N) (newEntry : CStr)
    (priv : ℕ) : Option (ℤ × NodeStrlist N) := do
  let (_, place) ←
    addLoop (fun parent => some (descend (slist.str parent) newEntry)) fuel slist.entries none .root
  match place with
  | none => some (-17, slist)
  | some (parent, p) =>
      match strNodeNew mem newEntry slist.dupstr with
      | none => some (-12, slist)
      | some sn => do
          let entries ← (slist.entries.rbLinkNode new parent p).rbInsertColor fuel new
          some (0, { slist with
            entries := entries
            listEntries := slist.listEntries ++ [new]
            str := Function.update slist.str new { sn with priv := priv } })

omit [DecidableEq N] in
/-- The `while` of `strlist__has_entry`. -/
def hasEntryLoop (str : N → StrNode) (entry : CStr) : ℕ → RbMem N → Option N → Option Bool
  | 0, _, _ => none
  | _ + 1, _, none => some false
  | fuel + 1, m, some sn =>
      match descend (str sn) entry with
      | .gt => hasEntryLoop str entry fuel m (m.child .left sn)
      | .lt => hasEntryLoop str entry fuel m (m.child .right sn)
      | .eq => some true

omit [DecidableEq N] in
/-- `strlist__has_entry` -/
def strlistHasEntry (fuel : ℕ) (slist : NodeStrlist N) (entry : CStr) : Option Bool :=
  hasEntryLoop slist.str entry fuel slist.entries slist.entries.root

/-- Strings are added one after the other; `malloc` finds a node for each. -/
def strlistAdds (malloc : List N → N) (fuel : ℕ) (slist : NodeStrlist N)
    (adds : List (Memory × CStr × ℕ)) : Option (NodeStrlist N) :=
  adds.foldlM (fun slist add =>
    (strlistAddPriv fuel add.1 slist (malloc slist.listEntries) add.2.1 add.2.2).map Prod.snd) slist

section Strlist

variable {m : RbMem N} {path : List (Frame N)} {t : SearchTree N} {fuel : ℕ} {slist : NodeStrlist N}
  {mem : Memory} {new : N} {newEntry : CStr} {priv : ℕ} {str : N → StrNode} {entry : CStr}

omit [DecidableEq N] in
theorem hasEntryLoop_spec (h : m.Represents (plug path t)) (hfuel : t.height < fuel) :
    hasEntryLoop str entry fuel m t.top? =
      some (t.lookup fun sn => (descend (str sn) entry).swap).isSome := by
  induction t generalizing path fuel with
  | leaf =>
      obtain ⟨fuel, rfl⟩ : ∃ k, fuel = k + 1 := ⟨fuel - 1, by rw [height] at hfuel; omega⟩
      rfl
  | node red left sn right ihl ihr =>
      rw [height] at hfuel
      obtain ⟨fuel, rfl⟩ : ∃ k, fuel = k + 1 := ⟨fuel - 1, by omega⟩
      have hleft : m.Represents (plug (⟨.left, red, sn, right⟩ :: path) left) := h
      have hright : m.Represents (plug (⟨.right, red, sn, left⟩ :: path) right) := h
      have hchildLeft : m.child .left sn = left.top? := by
        rw [child, hleft.cell_parent, RbNode.child_towards]
      have hchildRight : m.child .right sn = right.top? := by
        rw [child, hright.cell_parent, RbNode.child_towards]
      rw [top?, hasEntryLoop, lookup, hchildLeft, hchildRight]
      cases descend (str sn) entry with
      | gt => exact ihl hleft (by omega)
      | lt => exact ihr hright (by omega)
      | eq => rfl

/-- The list as the model has it, with the tree of the nodes. -/
def NodeStrlist.model (slist : NodeStrlist N) (t : SearchTree N) : Strlist where
  entries := t.map slist.str
  listEntries := slist.listEntries.map slist.str
  dupstr := slist.dupstr

/-- The memory has a balanced tree of the nodes on the list, sorted by their strings. -/
structure Stands (slist : NodeStrlist N) (t : SearchTree N) : Prop where
  represents : slist.entries.Represents t
  balanced : t.Balanced
  perm : t.inorder.Perm slist.listEntries
  inStep : (slist.model t).InStep

variable (mem newEntry priv) in
/-- `__strlist__add` on nodes returns what the model returns and leaves the list of the model.
-/
theorem Stands.add (h : Stands slist t) (rb : RbTree) (hnew : new ∉ slist.listEntries)
    (hfuel : t.height < fuel) :
    ∃ slist' t', strlistAddPriv fuel mem slist new newEntry priv =
        some ((Pahole.strlistAddPriv rb mem (slist.model t) newEntry priv).1, slist') ∧
      Stands slist' t' ∧ slist'.dupstr = slist.dupstr ∧
      (slist'.model t').listEntries =
        (Pahole.strlistAddPriv rb mem (slist.model t) newEntry priv).2.listEntries ∧
      slist'.listEntries.length ≤ slist.listEntries.length + 1 := by
  have hnewTree : new ∉ t.inorder := fun hmem => hnew (h.perm.mem_iff.mp hmem)
  obtain ⟨str', hstr'⟩ : ∃ str', str' = Function.update slist.str new ⟨newEntry, priv⟩ := ⟨_, rfl⟩
  have hsame : ∀ v, v ≠ new → str' v = slist.str v := fun v hv => by
    rw [hstr', Function.update_of_ne hv]
  have hsameTree : ∀ v ∈ t.inorder, slist.str v = str' v :=
    fun v hv => (hsame v (ne_of_mem_of_not_mem hv hnewTree)).symm
  have hstrNew : str' new = ⟨newEntry, priv⟩ := by rw [hstr', Function.update_self]
  have hlinkMap : (slist.model t).entries.link (fun parent => some (descend parent newEntry))
      ⟨newEntry, priv⟩ = (t.link (fun parent => some (descend (slist.str parent) newEntry)) new).map
        fun r => (r.1.map str', r.2.map (SearchTree.map str')) := by
    have hcompare : ∀ v ∈ t.inorder, some (descend (slist.str v) newEntry) =
        some (descend (str' v) newEntry) := fun v hv => by rw [hsameTree v hv]
    change (t.map slist.str).link _ _ = _
    rw [map_congr hsameTree, link_congr hcompare, ← hstrNew]
    exact link_map
  have hstep : strlistStep rb (slist.model t) (.add mem newEntry priv) =
    some (Pahole.strlistAddPriv rb mem (slist.model t) newEntry priv) := rfl
  have hnext : (Pahole.strlistAddPriv rb mem (slist.model t) newEntry priv).2.InStep :=
    (h.inStep.step hstep).1
  cases hlink : t.link (fun parent => some (descend (slist.str parent) newEntry)) new with
  | none =>
      rw [hlink] at hlinkMap
      obtain ⟨path, result, hpath, -⟩ := h.inStep.link ⟨newEntry, priv⟩
      cases hlinkMap.symm.trans hpath
  | some r =>
      obtain ⟨values, result⟩ := r
      rw [hlink, Option.map_some] at hlinkMap
      obtain ⟨place, m', t', hloop, hlinkNew, hplace, hrep, hbalanced, hinorder⟩ :=
        linkNew_spec h.represents h.balanced hnewTree hfuel hlink
      rw [strlistAddPriv, hloop]
      cases result with
      | none =>
          rw [strlistAddPriv_found hlinkMap]
          obtain rfl := Option.isNone_iff_eq_none.mp hplace
          exact ⟨slist, t, rfl, h, rfl, rfl, Nat.le_succ _⟩
      | some linked =>
          obtain ⟨⟨parent, p⟩, rfl⟩ : ∃ at', place = some at' :=
            Option.ne_none_iff_exists'.mp fun hnone => by
              rw [hnone] at hplace
              cases hplace
          rw [Option.getD_some] at hinorder
          by_cases hmem : mem.Suffices slist.dupstr
          · rw [strlistAddPriv_linked hlinkMap hmem] at hnext ⊢
            have hlist : (slist.listEntries ++ [new]).map str' =
                slist.listEntries.map slist.str ++ [⟨newEntry, priv⟩] := by
              rw [List.map_append, List.map_singleton, hstrNew]
              refine congrArg (· ++ _) (List.map_congr_left fun v hv => hsame v ?_)
              exact ne_of_mem_of_not_mem hv hnew
            refine ⟨⟨m', slist.listEntries ++ [new], slist.dupstr, str'⟩, t', ?_,
              ⟨hrep, hbalanced, ?_, hnext.congr ?_ hlist⟩, rfl, hlist, ?_⟩
            · rw [hstr', Option.bind_eq_bind, Option.bind_some]
              dsimp only
              rw [strNodeNew_of_suffices hmem]
              change (linkNew fuel slist.entries new (some (parent, p)) >>= _) = _
              rw [hlinkNew]
              rfl
            · rw [hinorder]
              refine (link_perm hlink).trans ((h.perm.cons new).trans ?_)
              exact (List.perm_append_singleton new slist.listEntries).symm
            · rw [NodeStrlist.model, rb.inorder_insertColor, inorder_map, inorder_map, hinorder]
            · rw [List.length_append, List.length_singleton]
          · rw [strlistAddPriv_noMemory hlinkMap hmem]
            refine ⟨slist, t, ?_, h, rfl, rfl, Nat.le_succ _⟩
            rw [Option.bind_eq_bind, Option.bind_some]
            dsimp only
            rw [strNodeNew_of_not_suffices hmem]

/-- Additions on nodes succeed and append to the list what `InsertionOrder.run` appends. -/
theorem Stands.adds {n : ℕ} {malloc : List N → N} {adds : List (Memory × CStr × ℕ)} (rb : RbTree)
    (hmalloc : ∀ l, malloc l ∉ l) (h : Stands slist t)
    (hn : slist.listEntries.length + adds.length ≤ n) (hfuel : 2 * Nat.log 2 (n + 1) < fuel) :
    ∃ slist' t', strlistAdds malloc fuel slist adds = some slist' ∧ Stands slist' t' ∧
      slist'.listEntries.length ≤ n ∧ slist'.dupstr = slist.dupstr ∧
      some (slist'.model t').listEntries = InsertionOrder.run StrNode.s (slist.model t).listEntries
        ((adds.map fun add => StrlistOp.add add.1 add.2.1 add.2.2).flatMap
          (StrlistOp.changes slist.dupstr)) := by
  induction adds generalizing slist t with
  | nil => exact ⟨slist, t, rfl, h, (Nat.le_add_right _ _).trans hn, rfl, rfl⟩
  | cons add adds ih =>
      rw [List.length_cons] at hn
      have hheight : t.height < fuel := by
        refine (h.balanced.height_le_of_le ?_).trans_lt hfuel
        rw [h.perm.length_eq]
        omega
      obtain ⟨slist₁, t₁, hrun₁, hstands₁, hdupstr₁, hlist₁, hlength₁⟩ :=
        h.add add.1 add.2.1 add.2.2 rb (hmalloc slist.listEntries) hheight
      obtain ⟨slist', t', hrun, hstands, hlength, hdupstr, hlist⟩ := ih hstands₁ (by omega)
      have hchanges := h.inStep.step_changes rb (.add add.1 add.2.1 add.2.2)
      rw [strlistStep, Option.map_some, ← hlist₁] at hchanges
      refine ⟨slist', t', ?_, hstands, hlength, hdupstr.trans hdupstr₁, ?_⟩
      · rw [strlistAdds, List.foldlM_cons, hrun₁]
        exact hrun
      · rw [hlist, List.map_cons, List.flatMap_cons, InsertionOrder.run_append]
        have hdup : (slist.model t).dupstr = slist.dupstr := rfl
        rw [hdup] at hchanges
        rw [← hchanges, hdupstr₁]
        rfl

omit [DecidableEq N] in
theorem Stands.hasEntry (h : Stands slist t) (hfuel : t.height < fuel) :
    strlistHasEntry fuel slist entry = some (Pahole.strlistHasEntry (slist.model t) entry) := by
  have hplug : slist.entries.Represents (plug [] t) := h.represents
  rw [strlistHasEntry, h.represents.root, hasEntryLoop_spec hplug hfuel, Pahole.strlistHasEntry,
    NodeStrlist.model, lookup_map, Option.isSome_map]

omit [DecidableEq N] in
theorem stands_new (m : RbMem N) (str : N → StrNode) (dupstr : Bool) :
    Stands (strlistNew m str dupstr) .leaf where
  represents := ⟨rfl, trivial, List.nodup_nil⟩
  balanced := ⟨0, .leaf⟩
  perm := List.Perm.refl _
  inStep := strlistNew_inStep dupstr

/-- The list on the nodes has the strings of the model, answers lookups and additions as the
model does, and deleting it frees exactly its nodes. -/
structure ActsAlike (rb : RbTree) (malloc : List N → N) (junk : N → RbNode N) (fuel rounds : ℕ)
    (slist : NodeStrlist N) (model : Strlist) : Prop where
  listEntries : slist.listEntries.map slist.str = model.listEntries
  hasEntry : ∀ entry, strlistHasEntry fuel slist entry = some (Pahole.strlistHasEntry model entry)
  add : ∀ mem newEntry priv,
    (strlistAddPriv fuel mem slist (malloc slist.listEntries) newEntry priv).map Prod.fst =
      some (Pahole.strlistAddPriv rb mem model newEntry priv).1
  delete : ∃ m' freed, strlistDelete junk fuel rounds slist.entries = some (m', freed) ∧
    freed.Perm slist.listEntries ∧ m'.root = none

/-- After any sequence of additions with nodes that are not in use, whatever allocations fail,
the list on the nodes acts as the model does after the same additions. -/
theorem strlistAdds_actsAlike (rb : RbTree) {malloc : List N → N} {junk : N → RbNode N}
    {rounds : ℕ} {dupstr : Bool} {adds : List (Memory × CStr × ℕ)} (hmalloc : ∀ l, malloc l ∉ l)
    (hfuel : 2 * Nat.log 2 (adds.length + 1) < fuel) (hrounds : adds.length < rounds) :
    ∃ slist model, strlistAdds malloc fuel (strlistNew m str dupstr) adds = some slist ∧
      strlistRun rb (Pahole.strlistNew dupstr)
          (adds.map fun add => .add add.1 add.2.1 add.2.2) = some model ∧
        ActsAlike rb malloc junk fuel rounds slist model := by
  have hlength₀ : (strlistNew m str dupstr).listEntries.length + adds.length ≤ adds.length :=
    (Nat.zero_add _).le
  obtain ⟨slist, t, hrun, hstands, hlength, hdupstr, hlist⟩ :=
    (stands_new m str dupstr).adds rb hmalloc hlength₀ hfuel
  have hinorder : t.inorder.length ≤ adds.length := hstands.perm.length_eq.trans_le hlength
  have hheight := (hstands.balanced.height_le_of_le hinorder).trans_lt hfuel
  have hchanges := (strlistNew_inStep dupstr).run_changes rb
    (adds.map fun add => .add add.1 add.2.1 add.2.2)
  obtain ⟨model, hmodel, hmodelList⟩ := Option.map_eq_some_iff.mp (hchanges.trans hlist.symm)
  obtain ⟨hinStep, hdupstr'⟩ := (strlistNew_inStep dupstr).run hmodel
  refine ⟨slist, model, hrun, hmodel, hmodelList.symm, fun entry => ?_,
    fun mem newEntry priv => ?_, ?_⟩
  · rw [hstands.hasEntry hheight]
    refine congrArg some (Bool.eq_iff_iff.mpr ?_)
    rw [hstands.inStep.hasEntry_iff, hinStep.hasEntry_iff, hmodelList]
  · obtain ⟨slist', t', hadd, -⟩ :=
      hstands.add mem newEntry priv rb (hmalloc slist.listEntries) hheight
    have hnodes : (slist.model t).LooksLike rb _ := hstands.inStep.looksLike
    have hmodelLike : model.LooksLike rb _ := hinStep.looksLike
    have hsame : (slist.model t).dupstr = model.dupstr := hdupstr.trans hdupstr'.symm
    rw [hadd, Option.map_some, hnodes.add, hmodelLike.add, hmodelList, hsame]
  · have hlog : 2 * Nat.log 2 (t.inorder.length + 1) < fuel :=
      lt_of_le_of_lt (Nat.mul_le_mul_left 2 (Nat.log_mono_right (Nat.succ_le_succ hinorder))) hfuel
    obtain ⟨m', hloop, hroot, -⟩ :=
      deleteLoop_spec junk hstands.represents hstands.balanced hlog (hinorder.trans_lt hrounds)
    have hfirst := rbFirst_spec hstands.represents hheight
    exact ⟨m', t.inorder, strlistDelete_of_loop hfirst hloop hroot, hstands.perm, hroot⟩

/-- Two strings, one of them added twice. -/
theorem strlistAdds_actsAlike_ab : ∃ slist model,
    strlistAdds (fun l : List ℕ => l.sum + 1) 5
        (strlistNew ⟨none, fun _ => ⟨none, false, none, none⟩⟩ (fun _ => ⟨.ofBytes [], 0⟩) true)
        [(⟨true, true⟩, .ofBytes [98], 0), (⟨true, true⟩, .ofBytes [97], 0),
          (⟨true, true⟩, .ofBytes [98], 0)] = some slist ∧
      strlistRun .plain (Pahole.strlistNew true)
          ([(⟨true, true⟩, .ofBytes [98], 0), (⟨true, true⟩, .ofBytes [97], 0),
            (⟨true, true⟩, .ofBytes [98], 0)].map
              fun add : Memory × CStr × ℕ => .add add.1 add.2.1 add.2.2) = some model ∧
        ActsAlike .plain (fun l : List ℕ => l.sum + 1) (fun _ => ⟨none, true, none, none⟩) 5 4
          slist model :=
  strlistAdds_actsAlike .plain
    (fun l hmem => absurd (List.le_sum_of_mem hmem) (Nat.not_succ_le_self l.sum))
    (by decide) (by decide)

end Strlist

end RbMem

end Pahole

import Pahole.Pahole.SortOrders
import Pahole.Support.KeyedTrees
import Pahole.Support.RefinedOrder

/-!
# When sorted output lists every struct once

Both comparisons look at the names first.  When no CU has two structs of one name, any two structs of
one name are compared for some order of the CUs, before others of that name are inserted, and what is
printed tells what the comparisons have said.
-/

namespace Pahole.SortOutput

open SearchTree

/-- Types by name. -/
def byName : SortType → SortType → Ordering := compareOn SortType.name

instance : Std.TransCmp byName := by
  unfold byName
  infer_instance

/-- No two types that a CU has inserted have the same name. -/
def NamedApart (classFilter : SortType → Bool) (cus : List (List SortType)) : Prop :=
  ∀ types ∈ cus, (types.filter classFilter).Pairwise fun a b => a.name ≠ b.name

/-- Some type sets `need_resort` when it is compared with one that is inserted before it for some
order of the CUs. -/
def SetsNeedResort (classFilter : SortType → Bool) (cus : List (List SortType)) : Prop :=
  ∃ cus', cus.Perm cus' ∧
    ¬(insertedTypes classFilter cus').Pairwise fun a b => typeCompare a b ≠ some (.gt, true)

/-- `type__compare` goes by the same order whatever the order of the CUs. -/
def FirstOrdered (classFilter : SortType → Bool) (cus : List (List SortType)) : Prop :=
  ∃ order, ∃ _ : Std.TransCmp order, ∀ cus', cus.Perm cus' →
    (insertedTypes classFilter cus').Pairwise fun a b =>
      typeCompare a b = some (probe order empty b a, decide (order a b = .eq ∧ empty a = false))

section Names

variable {a b m : SortType} {xs ys : List SortType}

theorem byName_eq_iff : byName a b = .eq ↔ a.name = b.name :=
  (Std.LawfulEqCmp.compare_eq_iff_eq : compare a.name b.name = .eq ↔ a.name = b.name)

theorem typeCompare_of_ne (h : a.name ≠ b.name) : typeCompare a b = some (byName a b, false) := by
  have hne : compare a.name b.name ≠ .eq := fun heq => h (byName_eq_iff.mp heq)
  unfold typeCompare byName compareOn
  cases hcase : compare a.name b.name with
  | eq => exact absurd hcase hne
  | lt => rfl
  | gt => rfl

theorem typeCompareMembersTypes_of_ne (h : a.name ≠ b.name) :
    typeCompareMembersTypes a b = some (byName a b) := by
  have hne : compare a.name b.name ≠ .eq := fun heq => h (byName_eq_iff.mp heq)
  unfold typeCompareMembersTypes byName compareOn
  cases hcase : compare a.name b.name with
  | eq => exact absurd hcase hne
  | lt => rfl
  | gt => rfl

theorem refines_typeCompare : Refines byName fun v t => (typeCompare v t).map Prod.fst := by
  intro v t hne
  dsimp only
  rw [typeCompare_of_ne (byName_eq_iff.not.mp hne)]
  rfl

theorem refines_typeCompareMembersTypes : Refines byName typeCompareMembersTypes :=
  fun _ _ hne => typeCompareMembersTypes_of_ne (byName_eq_iff.not.mp hne)

/-- `type__compare` takes types for equal that it does not tell apart before it looks at members, if
there are none. -/
theorem typeCompare_eq_iff {flag : Bool} : typeCompare a b = some (.eq, flag) ↔
    flag = false ∧ (compare a.name b.name).then ((intCompare a.size b.size).then
      (intCompare a.nrMembers b.nrMembers)) = .eq ∧ a.nrMembers = 0 := by
  unfold typeCompare
  split
  · rename_i hheads
    by_cases hzero : a.nrMembers = 0
    · rw [if_pos hzero]
      refine ⟨fun h => ⟨(congrArg Prod.snd (Option.some.inj h)).symm, hheads, hzero⟩, ?_⟩
      rintro ⟨rfl, -⟩
      rfl
    · simp only [hzero, if_false, and_false, iff_false]
      intro h
      obtain ⟨ret, -, hret⟩ := Option.map_eq_some_iff.mp h
      split at hret
      · cases hret
      · rename_i hne
        exact hne (congrArg Prod.fst hret)
  · rename_i hne
    refine iff_of_false (fun h => hne ?_) fun h => hne h.2.1
    exact congrArg Prod.fst (Option.some.inj h)

theorem typeCompare_flag {ret : Ordering} (h : typeCompare a b = some (ret, true)) : ret = .gt := by
  unfold typeCompare at h
  split at h
  · split at h
    · cases h
    · obtain ⟨o, -, ho⟩ := Option.map_eq_some_iff.mp h
      split at ho
      · exact (congrArg Prod.fst ho).symm
      · cases ho
  · cases h

/-- If `type__compare` returns 0 for a type, it does so for every type with the same key. -/
theorem typeCompare_eq_of_fullKey_eq (hkey : fullKey m = fullKey b) {flag : Bool}
    (h : typeCompare a b = some (.eq, flag)) : typeCompare a m = some (.eq, flag) := by
  have hname : m.name = b.name := congrArg (fun k => k.1) hkey
  have hsize : m.size = b.size := congrArg (fun k => k.2.1) hkey
  have hnr : m.nrMembers = b.nrMembers := congrArg (fun k => k.2.2.1) hkey
  rw [typeCompare_eq_iff] at h ⊢
  rw [hname, hsize, hnr]
  exact h

/-- Tags that have the same members are compared the same, if none is walked past. -/
theorem compareMembersTypes_congr {as : List SortMember} {tags tags' : List SortTag}
    {o o' : Ordering}
    (hkeys : (SortType.members ⟨"", 0, tags⟩).map
        (fun m => (m.name, m.bitOffset, m.bitfieldSize, m.typeName)) =
      (SortType.members ⟨"", 0, tags'⟩).map
        fun m => (m.name, m.bitOffset, m.bitfieldSize, m.typeName))
    (h : compareMembersTypes as tags = some o) (h' : compareMembersTypes as tags' = some o') :
    o = o' := by
  induction as generalizing tags tags' with
  | nil => exact Option.some.inj (h.symm.trans h')
  | cons a as ih =>
      match tags, tags' with
      | [], _ => cases h
      | .other :: _, _ => cases h
      | .member b :: bs, [] => cases h'
      | .member b :: bs, .other :: _ => cases h'
      | .member b :: bs, .member b' :: bs' =>
          obtain ⟨hhere, hrest⟩ := List.cons.inj hkeys
          simp only [Prod.mk.injEq] at hhere
          obtain ⟨hname, hoffset, hsize, htype⟩ := hhere
          rw [compareMembersTypes, hname, hoffset, hsize, htype] at h
          rw [compareMembersTypes] at h'
          revert h h'
          cases a.typeName with
          | none => exact fun h h' => Option.some.inj (h.symm.trans h')
          | some typeA =>
              cases b'.typeName with
              | none => exact fun h h' => Option.some.inj (h.symm.trans h')
              | some typeB =>
                  dsimp only
                  split
                  · exact fun h h' => ih hrest h h'
                  · exact fun h h' => Option.some.inj (h.symm.trans h')

theorem typeCompareMembersTypes_congr (hkey : fullKey m = fullKey b) {o o' : Ordering}
    (h : typeCompareMembersTypes a m = some o) (h' : typeCompareMembersTypes a b = some o') :
    o = o' := by
  have hname : m.name = b.name := congrArg (fun k => k.1) hkey
  unfold typeCompareMembersTypes at h h'
  rw [hname] at h
  split at h
  · rename_i heq
    rw [heq] at h'
    dsimp only at h'
    split at h
    · rename_i hzero
      rw [if_pos hzero] at h'
      exact Option.some.inj (h.symm.trans h')
    · rename_i hne
      rw [if_neg hne] at h'
      exact compareMembersTypes_congr (congrArg (fun k => k.2.2.2) hkey) h h'
  · rename_i hne
    have hret : some (compare a.name b.name) = some o' := by
      split at h'
      · rename_i heq
        exact (hne heq).elim
      · exact h'
    exact Option.some.inj (h.symm.trans hret)

theorem equals_of_apart (h : xs.Pairwise fun a b => a.name ≠ b.name) (ha : a ∈ xs) :
    equals byName a xs = [a] := by
  obtain ⟨before, after, rfl⟩ := List.append_of_mem ha
  rw [List.pairwise_append, List.pairwise_cons] at h
  have hbefore : equals byName a before = [] := List.filter_eq_nil_iff.mpr fun v hv => by
    simpa [byName_eq_iff] using h.2.2 v hv a List.mem_cons_self
  have hafter : equals byName a after = [] := List.filter_eq_nil_iff.mpr fun v hv => by
    simpa [byName_eq_iff] using (h.2.1.1 v hv).symm
  have hself : equals byName a (a :: after) = a :: equals byName a after :=
    List.filter_cons_of_pos (decide_eq_true Std.ReflCmp.compare_self)
  rw [equals, List.filter_append]
  exact (congrArg₂ (· ++ ·) hbefore (hself.trans (by rw [hafter])))

theorem eq_of_apart (h : xs.Pairwise fun a b => a.name ≠ b.name) (ha : a ∈ xs) (hb : b ∈ xs)
    (hname : a.name = b.name) : a = b := by
  have hsymm : Std.Symm fun a b : SortType => a.name ≠ b.name := ⟨fun _ _ => Ne.symm⟩
  by_contra hne
  exact List.Pairwise.forall h ha hb hne hname

theorem equals_before_of_apart (h : (xs ++ b :: ys).Pairwise fun a b => a.name ≠ b.name)
    (hname : a.name = b.name) : equals byName a xs = [] :=
  List.filter_eq_nil_iff.mpr fun v hv => by
    simpa [byName_eq_iff, hname] using
      (List.pairwise_append.mp h).2.2 v hv b List.mem_cons_self

end Names

/-! ## Runs -/

section Runs

variable {balance : SearchTree SortType → SearchTree SortType} {s s' : Structures} {t : SortType}
  {ts ts' : List SortType}

/-- `structures__add` inserts a type into the tree and appends it to the list, unless an equal
one is met. -/
theorem structuresAdd_cases (hbalance : ∀ t, (balance t).inorder = t.inorder)
    (hperm : s.tree.inorder.Perm s.list) (h : structuresAdd balance s t = some s') :
    SearchTree.insert balance (fun v t => (typeCompare v t).map Prod.fst) s.tree t = some s'.tree ∧
      s'.tree.inorder.Perm s'.list ∧
      (s'.list = s.list ∧ (∃ v ∈ s.tree.inorder, (typeCompare v t).map Prod.fst = some .eq) ∨
        s'.list = s.list ++ [t]) := by
  unfold structuresAdd at h
  unfold SearchTree.insert
  cases hlink : s.tree.link (fun str => (typeCompare str t).map Prod.fst) t with
  | none =>
      rw [hlink] at h
      cases h
  | some r =>
      obtain ⟨path, result⟩ := r
      rw [hlink] at h
      cases result with
      | none =>
          obtain rfl := Option.some.inj h
          exact ⟨rfl, hperm, Or.inl ⟨rfl, link_none hlink⟩⟩
      | some tree =>
          obtain rfl := Option.some.inj h
          refine ⟨rfl, ?_, Or.inr rfl⟩
          rw [hbalance]
          exact (link_perm hlink).trans
            ((hperm.cons t).trans (List.perm_append_singleton t s.list).symm)

theorem addStructures_append :
    addStructures balance s (ts ++ ts') =
      (addStructures balance s ts).bind fun s => addStructures balance s ts' := by
  induction ts generalizing s with
  | nil => rfl
  | cons t ts ih =>
      rw [List.cons_append, addStructures, addStructures]
      cases structuresAdd balance s t with
      | none => rfl
      | some s => exact ih

/-- The types are inserted into the tree, and those that are not left out into the list. -/
theorem addStructures_run (hbalance : ∀ t, (balance t).inorder = t.inorder)
    (hperm : s.tree.inorder.Perm s.list) (h : addStructures balance s ts = some s') :
    insertAll balance (fun v t => (typeCompare v t).map Prod.fst) s.tree ts = some s'.tree ∧
      s'.tree.inorder.Perm s'.list ∧ ∃ added, s'.list = s.list ++ added ∧ added.Sublist ts := by
  induction ts generalizing s with
  | nil =>
      obtain rfl := Option.some.inj h
      exact ⟨rfl, hperm, [], (List.append_nil _).symm, List.Sublist.refl _⟩
  | cons t ts ih =>
      obtain ⟨s₁, hstep, hrest⟩ := Option.bind_eq_some_iff.mp h
      obtain ⟨hinsert, hperm₁, hlist⟩ := structuresAdd_cases hbalance hperm hstep
      obtain ⟨hrun, hperm', added, hadded, hsublist⟩ := ih hperm₁ hrest
      refine ⟨by rw [insertAll, hinsert]; exact hrun, hperm', ?_⟩
      rcases hlist with ⟨hlist, -⟩ | hlist
      · exact ⟨added, by rw [hadded, hlist], hsublist.cons t⟩
      · exact ⟨t :: added, by rw [hadded, hlist, List.append_assoc]; rfl, hsublist.cons_cons t⟩

/-- `need_resort` stays as it is when no type sets it. -/
theorem addStructures_needResort (hbalance : ∀ t, (balance t).inorder = t.inorder)
    (hflags : ∀ v ∈ s.tree.inorder, ∀ t ∈ ts, typeCompare v t ≠ some (.gt, true))
    (hts : ts.Pairwise fun a b => typeCompare a b ≠ some (.gt, true))
    (h : addStructures balance s ts = some s') : s'.needResort = s.needResort := by
  induction ts generalizing s with
  | nil =>
      obtain rfl := Option.some.inj h
      rfl
  | cons t ts ih =>
      obtain ⟨s₁, hstep, hrest⟩ := Option.bind_eq_some_iff.mp h
      rw [List.pairwise_cons] at hts
      unfold structuresAdd at hstep
      cases hlink : s.tree.link (fun str => (typeCompare str t).map Prod.fst) t with
      | none =>
          rw [hlink] at hstep
          cases hstep
      | some r =>
          obtain ⟨path, result⟩ := r
          have hpath : (path.any fun str => typeCompare str t = some (.gt, true)) = false := by
            rw [List.any_eq_false]
            intro v hv
            simpa using hflags v (link_path_mem hlink v hv) t List.mem_cons_self
          rw [hlink] at hstep
          have hold : ∀ v ∈ s.tree.inorder, ∀ y ∈ ts, typeCompare v y ≠ some (.gt, true) :=
            fun v hv y hy => hflags v hv y (List.mem_cons_of_mem _ hy)
          cases result with
          | none =>
              obtain rfl := Option.some.inj hstep
              refine (ih ?_ hts.2 hrest).trans (by simp [hpath])
              exact hold
          | some tree =>
              obtain rfl := Option.some.inj hstep
              refine (ih ?_ hts.2 hrest).trans (by simp [hpath])
              intro v hv
              rw [hbalance] at hv
              rcases List.mem_cons.mp ((link_perm hlink).mem_iff.mp hv) with rfl | hv
              · exact hts.1
              · exact hold v hv

end Runs

/-! ## Two structs of one name -/

/-- Every order of the CUs prints the keys `keys`, which have no repetition and contain those of
all types inserted. -/
structure Lists (balance : SearchTree SortType → SearchTree SortType)
    (classFilter : SortType → Bool) (cus : List (List SortType)) (keys : List FullKey) : Prop where
  nodup : keys.Nodup
  mem : ∀ t ∈ insertedTypes classFilter cus, fullKey t ∈ keys
  run : ∀ cus', cus.Perm cus' → ∃ s printed,
    addStructures balance .empty (insertedTypes classFilter cus') = some s ∧
      printOrderedClasses balance s = some printed ∧ printed.map fullKey = keys

section Pairs

variable {balance : SearchTree SortType → SearchTree SortType} {classFilter : SortType → Bool}
  {cus : List (List SortType)}

theorem ListsOnce.lists (h : ListsOnce balance classFilter cus) :
    ∃ keys, Lists balance classFilter cus keys := by
  obtain ⟨printed, hprint, -, hnodup, hkeys, hall⟩ := h
  refine ⟨printed.map fullKey, hnodup, fun t ht => (hkeys _).mpr (List.mem_map_of_mem ht), ?_⟩
  intro cus' hperm
  obtain ⟨printed', hprint', hsame⟩ := hall cus' hperm
  obtain ⟨s, hs, hprinted⟩ := Option.bind_eq_some_iff.mp hprint'
  exact ⟨s, printed', hs, hprinted, hsame⟩

variable {keys : List FullKey}
  {typesA typesB : List SortType} {rest : List (List SortType)} {a b : SortType}

/-- The struct that is printed later has the later key. -/
theorem Lists.idxOf_lt (h : Lists balance classFilter cus keys) {printed : List SortType}
    (hprinted : printed.map fullKey = keys) (hsublist : [a, b].Sublist printed) :
    keys.idxOf (fullKey a) < keys.idxOf (fullKey b) := by
  have hkeys : [fullKey a, fullKey b].Sublist keys := hprinted ▸ hsublist.map fullKey
  obtain ⟨before, after, rfl, ha, hb⟩ := List.cons_sublist_iff.mp hkeys
  rw [List.singleton_sublist] at hb
  have hb' : fullKey b ∉ before := fun hmem =>
    (List.nodup_append'.mp h.nodup).2.2 hmem hb
  rw [List.idxOf_append_of_mem ha, List.idxOf_append_of_notMem hb']
  exact (List.idxOf_lt_length_of_mem ha).trans_le (Nat.le_add_right _ _)

/-- The first struct of its name is compared with the next one, of another CU, when these CUs come
first. -/
theorem Lists.meets (hbalance : ∀ t, (balance t).inorder = t.inorder)
    (h : Lists balance classFilter cus keys) (hapart : NamedApart classFilter cus)
    (hcus : cus.Perm (typesA :: typesB :: rest)) (ha : a ∈ typesA.filter classFilter)
    (hb : b ∈ typesB.filter classFilter) (hname : a.name = b.name) :
    ∃ s printed o, addStructures balance .empty
        (insertedTypes classFilter (typesA :: typesB :: rest)) = some s ∧
      printOrderedClasses balance s = some printed ∧ printed.map fullKey = keys ∧
      (typeCompare a b).map Prod.fst = some o ∧ (o = .gt → [b, a].Sublist s.tree.inorder) ∧
      (o = .lt → [a, b].Sublist s.tree.inorder) ∧
      (o ≠ .eq → ∃ before after, s.list = before ++ b :: after ∧
        equals byName a before = [a]) := by
  have hapartA := hapart typesA (hcus.mem_iff.mpr (by simp))
  have hapartB := hapart typesB (hcus.mem_iff.mpr (by simp))
  obtain ⟨beforeB, afterB, hsplit⟩ := List.append_of_mem hb
  rw [hsplit] at hapartB
  obtain ⟨s, printed, hrun, hprint, hkeys⟩ := h.run _ hcus
  have htypes : insertedTypes classFilter (typesA :: typesB :: rest) =
      (typesA.filter classFilter ++ beforeB) ++
        b :: (afterB ++ insertedTypes classFilter rest) := by
    simp [insertedTypes, hsplit]
  have hone : equals byName a (typesA.filter classFilter ++ beforeB) = [a] := by
    rw [equals, List.filter_append]
    exact congrArg₂ (· ++ ·) (equals_of_apart hapartA ha) (equals_before_of_apart hapartB hname)
  have hb' : byName b a = .eq := byName_eq_iff.mpr hname.symm
  have hstart : (Structures.empty).tree.inorder.Perm Structures.empty.list := List.Perm.refl _
  have htree := (addStructures_run hbalance hstart hrun).1
  rw [htypes] at htree
  obtain ⟨o, hcompare, hgt, hlt⟩ :=
    insertAll_meets hbalance refines_typeCompare hone hb' htree
  refine ⟨s, printed, o, hrun, hprint, hkeys, hcompare, hgt, hlt, fun hne => ?_⟩
  rw [htypes, addStructures_append] at hrun
  obtain ⟨s₁, hrun₁, hrun⟩ := Option.bind_eq_some_iff.mp hrun
  obtain ⟨s₂, hstep, hrun₂⟩ := Option.bind_eq_some_iff.mp hrun
  obtain ⟨htree₁, hperm₁, -⟩ := addStructures_run hbalance hstart hrun₁
  obtain ⟨-, hperm₂, hlist₂⟩ := structuresAdd_cases hbalance hperm₁ hstep
  obtain ⟨-, -, added, hadded, -⟩ := addStructures_run hbalance hperm₂ hrun₂
  have hone₁ := insertAll_one hbalance refines_typeCompare hone htree₁
  rcases hlist₂ with ⟨-, v, hv, heq⟩ | hlist₂
  · have hvb : byName v b = .eq := by
      by_contra hvb
      exact hvb (Option.some.inj ((refines_typeCompare v b hvb).symm.trans heq))
    have hva : v ∈ equals byName a s₁.tree.inorder :=
      List.mem_filter.mpr ⟨hv, decide_eq_true (Std.TransCmp.eq_trans hvb hb')⟩
    rw [hone₁, List.mem_singleton] at hva
    rw [hva] at heq
    exact absurd (Option.some.inj (hcompare.symm.trans heq)) hne
  · refine ⟨s₁.list, added, ?_, ?_⟩
    · rw [hadded, hlist₂, List.append_assoc]
      rfl
    · exact List.perm_singleton.mp (hone₁ ▸ (hperm₁.symm.filter _))

/-- The CUs that have a struct with the key of another one come next, and then the rest. -/
theorem exists_perm_sameKey (hcus : cus.Perm (typesA :: rest)) (key : FullKey) :
    ∃ same others, cus.Perm (typesA :: (same ++ others)) ∧
      (∀ types ∈ same, ∃ t ∈ types.filter classFilter, fullKey t = key) ∧
      ∀ types ∈ others, ∀ t ∈ types.filter classFilter, fullKey t ≠ key := by
  classical
  let has := fun types : List SortType => (types.filter classFilter).any fun t => fullKey t = key
  refine ⟨rest.filter has, rest.filter (fun types => !has types),
    hcus.trans ((List.filter_append_perm has rest).symm.cons _), fun types htypes => ?_,
    fun types htypes t ht hkey => ?_⟩
  · obtain ⟨t, ht, hkey⟩ := List.any_eq_true.mp (List.mem_filter.mp htypes).2
    exact ⟨t, ht, of_decide_eq_true hkey⟩
  · have hnot := (List.mem_filter.mp htypes).2
    rw [Bool.not_eq_true', List.any_eq_false] at hnot
    exact hnot t ht (decide_eq_true hkey)

/-- Every printed type is in the list. -/
theorem mem_of_printed (hbalance : ∀ t, (balance t).inorder = t.inorder) {s : Structures}
    {printed : List SortType} (hperm : s.tree.inorder.Perm s.list)
    (h : printOrderedClasses balance s = some printed) : ∀ v ∈ printed, v ∈ s.list := by
  unfold printOrderedClasses at h
  split at h
  · obtain ⟨t, hrun, rfl⟩ := Option.map_eq_some_iff.mp h
    intro v hv
    exact ((insertAll_grows hbalance refines_typeCompareMembersTypes sorted_leaf hrun).2.2 v
      hv).resolve_left (by simp [inorder])
  · obtain rfl := Option.some.inj h
    exact fun v hv => hperm.mem_iff.mp hv

/-- Two structs of one name have the same key if no other one is printed with the name and the key of
the second. -/
theorem Lists.fullKey_eq (h : Lists balance classFilter cus keys)
    (hapart : NamedApart classFilter cus) {same others : List (List SortType)}
    (hcus : cus.Perm (typesA :: (same ++ others)))
    (hothers : ∀ types ∈ others, ∀ t ∈ types.filter classFilter, fullKey t ≠ fullKey b)
    (ha : a ∈ typesA.filter classFilter) (hb : b ∈ insertedTypes classFilter cus)
    (hname : a.name = b.name) {printed : List SortType} (hkeys : printed.map fullKey = keys)
    (hmem : ∀ v ∈ printed, v ∈ typesA.filter classFilter ∨
      v ∈ insertedTypes classFilter same ∧ byName v a ≠ .eq ∨
        v ∈ insertedTypes classFilter others) : fullKey a = fullKey b := by
  have hkey := h.mem b hb
  rw [← hkeys] at hkey
  obtain ⟨v, hv, hvb⟩ := List.mem_map.mp hkey
  have hva : v.name = a.name := (congrArg (fun k => k.1) hvb).trans hname.symm
  rcases hmem v hv with hv | ⟨-, hne⟩ | hv
  · rw [← eq_of_apart (hapart typesA (hcus.mem_iff.mpr List.mem_cons_self)) hv ha hva]
    exact hvb
  · exact absurd (byName_eq_iff.mpr hva) hne
  · obtain ⟨types, htypes, hv⟩ := List.mem_flatMap.mp hv
    exact absurd hvb (hothers types htypes v hv)

/-- In a CU that has a struct with a key, that is the one with its name. -/
theorem fullKey_eq_of_same (hapart : NamedApart classFilter cus) {types : List SortType}
    (htypes : types ∈ cus) (hsame : ∃ t ∈ types.filter classFilter, fullKey t = fullKey b)
    {m : SortType} (hm : m ∈ types.filter classFilter) (hname : m.name = b.name) :
    fullKey m = fullKey b := by
  obtain ⟨t, ht, hkey⟩ := hsame
  have htm : t.name = m.name := (congrArg (fun k => k.1) hkey).trans hname.symm
  rw [← eq_of_apart (hapart types htypes) ht hm htm]
  exact hkey

/-- A struct that `type__compare` takes for another one has the same key. -/
theorem Lists.dropped (hbalance : ∀ t, (balance t).inorder = t.inorder)
    (h : Lists balance classFilter cus keys) (hapart : NamedApart classFilter cus)
    (hcus : cus.Perm (typesA :: typesB :: rest)) (ha : a ∈ typesA.filter classFilter)
    (hb : b ∈ typesB.filter classFilter) (hname : a.name = b.name) {flag : Bool}
    (heq : typeCompare a b = some (.eq, flag)) : fullKey a = fullKey b := by
  obtain ⟨same, others, hperm, hsame, hothers⟩ :=
    @exists_perm_sameKey classFilter _ _ _ hcus (fullKey b)
  have hbIn : b ∈ insertedTypes classFilter cus :=
    List.mem_flatMap.mpr ⟨typesB, hcus.mem_iff.mpr (by simp), hb⟩
  obtain ⟨s, printed, hrun, hprint, hkeys⟩ := h.run _ hperm
  obtain ⟨htree, hpermList, -⟩ := addStructures_run hbalance (List.Perm.refl _) hrun
  have htypes : insertedTypes classFilter (typesA :: (same ++ others)) =
      typesA.filter classFilter ++
        (insertedTypes classFilter same ++ insertedTypes classFilter others) := by
    simp [insertedTypes]
  rw [htypes] at htree
  refine h.fullKey_eq hapart hperm hothers ha hbIn hname hkeys fun v hv => ?_
  refine insertAll_drops hbalance refines_typeCompare
    (equals_of_apart (hapart typesA (hcus.mem_iff.mpr (by simp))) ha) (fun m hm hma => ?_) htree v
    (hpermList.mem_iff.mpr (mem_of_printed hbalance hpermList hprint v hv))
  obtain ⟨types, htypes, hm⟩ := List.mem_flatMap.mp hm
  have hmb := fullKey_eq_of_same hapart (hperm.mem_iff.mpr (by simp [htypes]))
    (hsame types htypes) hm ((byName_eq_iff.mp hma).trans hname)
  rw [typeCompare_eq_of_fullKey_eq hmb heq]
  rfl

/-- The second comparison of two structs of one name, when they are inserted again. -/
theorem Lists.meets_again (hbalance : ∀ t, (balance t).inorder = t.inorder)
    (h : Lists balance classFilter cus keys) (hapart : NamedApart classFilter cus)
    (hneed : ∀ cus' s, cus.Perm cus' →
      addStructures balance .empty (insertedTypes classFilter cus') = some s → s.needResort = true)
    (hcus : cus.Perm (typesA :: typesB :: rest)) (ha : a ∈ typesA.filter classFilter)
    (hb : b ∈ typesB.filter classFilter) (hname : a.name = b.name) :
    ∃ printed o, printed.map fullKey = keys ∧ typeCompareMembersTypes a b = some o ∧
      (o = .gt → [b, a].Sublist printed) ∧ (o = .lt → [a, b].Sublist printed) := by
  obtain ⟨s, printed, o, hrun, hprint, hkeys, hcompare, -, -, hlist⟩ :=
    h.meets hbalance hapart hcus ha hb hname
  by_cases ho : o = .eq
  · obtain ⟨⟨ret, flag⟩, hret, rfl⟩ := Option.map_eq_some_iff.mp hcompare
    obtain rfl : ret = .eq := ho
    have hzero := (typeCompare_eq_iff.mp hret).2.2
    refine ⟨printed, .eq, hkeys, ?_, by simp, by simp⟩
    have hnames : compare a.name b.name = .eq := byName_eq_iff.mpr hname
    simp [typeCompareMembersTypes, hnames, hzero]
  · obtain ⟨before, after, hsplit, hone⟩ := hlist ho
    rw [printOrderedClasses, if_pos (hneed _ s hcus hrun)] at hprint
    obtain ⟨t, hinsert, rfl⟩ := Option.map_eq_some_iff.mp hprint
    rw [hsplit] at hinsert
    obtain ⟨o', hcompare', hgt, hlt⟩ := insertAll_meets hbalance refines_typeCompareMembersTypes
      hone (byName_eq_iff.mpr hname.symm) hinsert
    exact ⟨t.inorder, o', hkeys, hcompare', hgt, hlt⟩

/-- Structs that `type__compare_members_types` takes for equal have the same key. -/
theorem Lists.dropped_again (hbalance : ∀ t, (balance t).inorder = t.inorder)
    (h : Lists balance classFilter cus keys) (hapart : NamedApart classFilter cus)
    (hneed : ∀ cus' s, cus.Perm cus' →
      addStructures balance .empty (insertedTypes classFilter cus') = some s → s.needResort = true)
    (hcus : cus.Perm (typesA :: typesB :: rest)) (ha : a ∈ typesA.filter classFilter)
    (hb : b ∈ typesB.filter classFilter) (hname : a.name = b.name)
    (heq : typeCompareMembersTypes a b = some .eq) : fullKey a = fullKey b := by
  obtain ⟨same, others, hperm, hsame, hothers⟩ :=
    @exists_perm_sameKey classFilter _ _ _ hcus (fullKey b)
  have hbIn : b ∈ insertedTypes classFilter cus :=
    List.mem_flatMap.mpr ⟨typesB, hcus.mem_iff.mpr (by simp), hb⟩
  obtain ⟨s, printed, hrun, hprint, hkeys⟩ := h.run _ hperm
  have hflag := hneed _ s hperm hrun
  have htypes : insertedTypes classFilter (typesA :: (same ++ others)) =
      typesA.filter classFilter ++
        (insertedTypes classFilter same ++ insertedTypes classFilter others) := by
    simp [insertedTypes]
  rw [htypes, addStructures_append] at hrun
  obtain ⟨s₁, hrun₁, hrun⟩ := Option.bind_eq_some_iff.mp hrun
  rw [addStructures_append] at hrun
  obtain ⟨s₂, hrun₂, hrun₃⟩ := Option.bind_eq_some_iff.mp hrun
  obtain ⟨htree₁, hperm₁, added₁, hlist₁, hadded₁⟩ :=
    addStructures_run hbalance (List.Perm.refl _) hrun₁
  obtain ⟨-, hperm₂, added₂, hlist₂, hadded₂⟩ := addStructures_run hbalance hperm₁ hrun₂
  obtain ⟨-, hperm₃, added₃, hlist₃, hadded₃⟩ := addStructures_run hbalance hperm₂ hrun₃
  have hapartA := hapart typesA (hcus.mem_iff.mpr (by simp))
  have hone₁ : equals byName a s₁.list = [a] := List.perm_singleton.mp
    (insertAll_one hbalance refines_typeCompare (equals_of_apart hapartA ha) htree₁ ▸
      hperm₁.symm.filter _)
  rw [printOrderedClasses, if_pos hflag, hlist₃, hlist₂, List.append_assoc] at hprint
  obtain ⟨t, hinsert, rfl⟩ := Option.map_eq_some_iff.mp hprint
  refine h.fullKey_eq hapart hperm hothers ha hbIn hname hkeys fun v hv => ?_
  have hdrops := insertAll_drops hbalance refines_typeCompareMembersTypes hone₁
    (fun m hm hma => ?_) hinsert v hv
  · refine hdrops.imp (fun hv => ?_) (Or.imp (fun hv => ⟨hadded₂.mem hv.1, hv.2⟩) hadded₃.mem)
    rw [hlist₁] at hv
    exact hadded₁.mem hv
  · obtain ⟨types, htypes, hm⟩ := List.mem_flatMap.mp (hadded₂.mem hm)
    have hmName : m.name = b.name := (byName_eq_iff.mp hma).trans hname
    have hmb := fullKey_eq_of_same hapart (hperm.mem_iff.mpr (by simp [htypes]))
      (hsame types htypes) hm hmName
    obtain ⟨before, after, hsplit⟩ := List.append_of_mem htypes
    have hfront : cus.Perm (typesA :: types :: (before ++ after ++ others)) := by
      refine hperm.trans (List.Perm.cons _ ?_)
      rw [hsplit]
      exact (List.perm_middle.append_right others)
    obtain ⟨-, o, -, hcompare, -⟩ :=
      h.meets_again hbalance hapart hneed hfront ha hm (hname.trans hmName.symm)
    rw [hcompare, typeCompareMembersTypes_congr hmb hcompare heq]

/-! ## The orders of what is printed -/

/-- Types by name and place among the keys. -/
def keyOrder (keys : List FullKey) : SortType → SortType → Ordering :=
  compareLex byName (compareOn fun t => keys.idxOf (fullKey t))

instance : Std.TransCmp (keyOrder keys) := by
  unfold keyOrder
  infer_instance

theorem keyOrder_of_ne (h : a.name ≠ b.name) : keyOrder keys a b = byName a b := by
  unfold keyOrder compareLex
  cases hcase : byName a b with
  | eq => exact absurd (byName_eq_iff.mp hcase) h
  | lt => rfl
  | gt => rfl

theorem keyOrder_of_eq (h : a.name = b.name) : keyOrder keys a b =
    compare (keys.idxOf (fullKey a)) (keys.idxOf (fullKey b)) := by
  rw [keyOrder, compareLex, byName_eq_iff.mpr h]
  rfl

/-- A relation between structs of different names, and between structs of one name in different
CUs, holds between each type inserted and those after it. -/
theorem pairwise_insertedTypes (hapart : NamedApart classFilter cus)
    {R : SortType → SortType → Prop} (hne : ∀ a b, a.name ≠ b.name → R a b)
    (heq : ∀ typesA typesB rest, cus.Perm (typesA :: typesB :: rest) →
      ∀ a ∈ typesA.filter classFilter, ∀ b ∈ typesB.filter classFilter, a.name = b.name → R a b) :
    ∀ cus', cus.Perm cus' → (insertedTypes classFilter cus').Pairwise R := by
  intro cus' hperm
  refine List.pairwise_flatMap.mpr ⟨fun types htypes => ?_, ?_⟩
  · exact (hapart types (hperm.mem_iff.mpr htypes)).imp fun h => hne _ _ h
  · refine List.pairwise_iff_forall_sublist.mpr fun {typesA typesB} hsub a ha b hb => ?_
    obtain ⟨rest, hrest⟩ := hsub.exists_perm_append
    by_cases hname : a.name = b.name
    · exact heq typesA typesB rest (hperm.trans hrest) a ha b hb hname
    · exact hne a b hname

/-- Without `need_resort`, the first comparison goes by the order in which is printed. -/
theorem Lists.sorts (hbalance : ∀ t, (balance t).inorder = t.inorder)
    (h : Lists balance classFilter cus keys) (hapart : NamedApart classFilter cus)
    (hquiet : ¬SetsNeedResort classFilter cus) :
    ∀ cus', cus.Perm cus' → (insertedTypes classFilter cus').Pairwise (Sorts (keyOrder keys)) := by
  have hunflagged : ∀ cus', cus.Perm cus' → (insertedTypes classFilter cus').Pairwise
      fun a b => typeCompare a b ≠ some (.gt, true) := by
    intro cus' hperm
    by_contra hnot
    exact hquiet ⟨cus', hperm, hnot⟩
  refine pairwise_insertedTypes hapart (fun a b hne => ?_) ?_
  · have hord : byName a b ≠ .eq := byName_eq_iff.not.mpr hne
    refine ⟨?_, fun hdrop => ?_⟩
    · rw [typeCompare_of_ne hne, probe, keyOrder_of_ne hne]
      cases hcase : byName a b with
      | eq => exact absurd hcase hord
      | lt => rfl
      | gt => rfl
    · rw [typeCompare_of_ne hne] at hdrop
      exact absurd (congrArg Prod.fst (Option.some.inj hdrop)) hord
  · intro typesA typesB rest hcus a ha b hb hname
    obtain ⟨s, printed, o, hrun, hprint, hkeys, hcompare, hgt, hlt, -⟩ :=
      h.meets hbalance hapart hcus ha hb hname
    have hneed : s.needResort = false := addStructures_needResort hbalance
      (by simp [Structures.empty, inorder]) (hunflagged _ hcus) hrun
    rw [printOrderedClasses, hneed, if_neg Bool.false_ne_true] at hprint
    obtain rfl := Option.some.inj hprint
    obtain ⟨⟨ret, flag⟩, hret, rfl⟩ := Option.map_eq_some_iff.mp hcompare
    have hflag : flag = false := by
      by_contra hflag
      rw [Bool.not_eq_false] at hflag
      subst hflag
      obtain rfl := typeCompare_flag hret
      have hpair : [a, b].Sublist (insertedTypes classFilter (typesA :: typesB :: rest)) := by
        rw [insertedTypes, List.flatMap_cons, List.flatMap_cons]
        exact (List.singleton_sublist.mpr ha).append
          ((List.singleton_sublist.mpr hb).trans (List.sublist_append_left _ _))
      exact List.pairwise_iff_forall_sublist.mp (hunflagged _ hcus) hpair hret
    subst hflag
    refine ⟨?_, fun hdrop => h.dropped hbalance hapart hcus ha hb hname hdrop⟩
    rw [hret, probe, keyOrder_of_eq hname]
    cases ret with
    | gt =>
        rw [Nat.compare_eq_gt.mpr (h.idxOf_lt hkeys (hgt rfl))]
        rfl
    | lt =>
        rw [Nat.compare_eq_lt.mpr (h.idxOf_lt hkeys (hlt rfl))]
        rfl
    | eq =>
        have hzero := (typeCompare_eq_iff.mp hret).2.2
        rw [h.dropped hbalance hapart hcus ha hb hname hret, Nat.compare_eq_eq.mpr rfl]
        simp [empty, hzero]

/-- With `need_resort`, the second comparison goes by the order in which is printed. -/
theorem Lists.resorts (hbalance : ∀ t, (balance t).inorder = t.inorder)
    (h : Lists balance classFilter cus keys) (hapart : NamedApart classFilter cus)
    (hneed : ∀ cus' s, cus.Perm cus' →
      addStructures balance .empty (insertedTypes classFilter cus') = some s →
        s.needResort = true) :
    ∀ cus', cus.Perm cus' →
      (insertedTypes classFilter cus').Pairwise (Resorts (keyOrder keys)) := by
  refine pairwise_insertedTypes hapart (fun a b hne => ?_) ?_
  · have hord : byName a b ≠ .eq := byName_eq_iff.not.mpr hne
    refine ⟨?_, ?_⟩
    · rw [typeCompareMembersTypes_of_ne hne, keyOrder_of_ne hne]
    · rw [keyOrder_of_ne hne]
      exact iff_of_false hord fun hkey => hne (congrArg (fun k => k.1) hkey)
  · intro typesA typesB rest hcus a ha b hb hname
    obtain ⟨printed, o, hkeys, hcompare, hgt, hlt⟩ :=
      h.meets_again hbalance hapart hneed hcus ha hb hname
    have hequal : fullKey a = fullKey b → keyOrder keys a b = .eq := by
      intro hkey
      rw [keyOrder_of_eq hname, hkey]
      exact Nat.compare_eq_eq.mpr rfl
    cases o with
    | gt =>
        have horder : keyOrder keys a b = .gt := by
          rw [keyOrder_of_eq hname]
          exact Nat.compare_eq_gt.mpr (h.idxOf_lt hkeys (hgt rfl))
        refine ⟨hcompare.trans (by rw [horder]), ?_⟩
        exact iff_of_false (by simp [horder]) fun hkey => by simp [hequal hkey] at horder
    | lt =>
        have horder : keyOrder keys a b = .lt := by
          rw [keyOrder_of_eq hname]
          exact Nat.compare_eq_lt.mpr (h.idxOf_lt hkeys (hlt rfl))
        refine ⟨hcompare.trans (by rw [horder]), ?_⟩
        exact iff_of_false (by simp [horder]) fun hkey => by simp [hequal hkey] at horder
    | eq =>
        have hkey := h.dropped_again hbalance hapart hneed hcus ha hb hname hcompare
        exact ⟨hcompare.trans (by rw [hequal hkey]), iff_of_true (hequal hkey) hkey⟩

/-- The comparisons go by orders if every key is printed once, whatever the order of the CUs. -/
theorem ListsOnce.sortableCus (hbalance : ∀ t, (balance t).inorder = t.inorder)
    (h : ListsOnce balance classFilter cus) (hapart : NamedApart classFilter cus)
    (hordered : SetsNeedResort classFilter cus → FirstOrdered classFilter cus) :
    SortableCus classFilter cus := by
  obtain ⟨keys, hlists⟩ := h.lists
  by_cases hquiet : SetsNeedResort classFilter cus
  · obtain ⟨order, _, hfirst⟩ := hordered hquiet
    have hdropped : ∀ cus', cus.Perm cus' → (insertedTypes classFilter cus').Pairwise
        fun a b => typeCompare a b = some (.eq, false) → fullKey a = fullKey b := by
      refine pairwise_insertedTypes hapart (fun a b hne hdrop => ?_) ?_
      · rw [typeCompare_of_ne hne] at hdrop
        exact absurd (byName_eq_iff.mp (congrArg Prod.fst (Option.some.inj hdrop))) hne
      · exact fun _ _ _ hcus a ha b hb hname =>
          hlists.dropped hbalance hapart hcus ha hb hname
    have hsorts : ∀ cus', cus.Perm cus' →
        (insertedTypes classFilter cus').Pairwise (Sorts order) := fun cus' hperm =>
      ((hfirst cus' hperm).and (hdropped cus' hperm)).imp fun h => ⟨h.1, h.2⟩
    refine ⟨order, inferInstance, hsorts, ?_⟩
    by_cases hdistinct : Distinct order (insertedTypes classFilter cus)
    · exact Or.inl hdistinct
    · refine Or.inr ⟨keyOrder keys, inferInstance, hlists.resorts hbalance hapart ?_⟩
      intro cus' s hperm hrun
      obtain ⟨s', hrun', hadded⟩ := (Added.empty : Added order [] .empty).run hbalance
        (by rw [List.nil_append]; exact hsorts cus' hperm)
      obtain rfl := Option.some.inj (hrun.symm.trans hrun')
      rw [List.nil_append] at hadded
      refine hadded.needResort.mpr fun hd => hdistinct ?_
      exact Distinct.perm (classes_of_sorts (hsorts cus' hperm)) (insertedTypes_perm hperm).symm hd
  · have hsorts := hlists.sorts hbalance hapart hquiet
    refine ⟨keyOrder keys, inferInstance, hsorts, Or.inl ?_⟩
    refine List.pairwise_iff_forall_sublist.mpr fun {a b} hsub heq => ?_
    have hcompare :=
      (List.pairwise_iff_forall_sublist.mp (hsorts cus (List.Perm.refl _)) hsub).compare
    by_contra hempty
    rw [Bool.not_eq_true] at hempty
    refine hquiet ⟨cus, List.Perm.refl _, fun hall => ?_⟩
    refine List.pairwise_iff_forall_sublist.mp hall hsub (hcompare.trans ?_)
    simp [probe, heq, hempty]

end Pairs

/-- `struct foo { int a; void f(); };` -/
def fooMethod : SortType := ⟨"foo", 4, [.member (intMember "a" 0), .other]⟩

/-- `struct bar { int a; static int b; };` -/
def barStatic : SortType :=
  ⟨"bar", 4, [.member (intMember "a" 0), .member { intMember "b" 0 with isStatic := true }]⟩

/-- `struct foo { int a; int b; };` -/
def fooTwo : SortType := ⟨"foo", 8, [.member (intMember "a" 0), .member (intMember "b" 32)]⟩

theorem sortableCus_fooMethod :
    SortableCus (fun _ => true) [[fooMethod], [fooMethod, barStatic], [barStatic]] := by
  have hmem : ∀ cus', [[fooMethod], [fooMethod, barStatic], [barStatic]].Perm cus' →
      ∀ t ∈ insertedTypes (fun _ => true) cus', t = fooMethod ∨ t = barStatic := by
    intro cus' hperm t ht
    rw [(insertedTypes_perm hperm).symm.mem_iff] at ht
    simp [insertedTypes] at ht
    tauto
  have hpairs : ∀ {R : SortType → SortType → Prop}, R fooMethod fooMethod →
      R fooMethod barStatic → R barStatic fooMethod → R barStatic barStatic →
      ∀ cus', [[fooMethod], [fooMethod, barStatic], [barStatic]].Perm cus' →
        (insertedTypes (fun _ => true) cus').Pairwise R := by
    intro R hff hfb hbf hbb cus' hperm
    refine List.pairwise_iff_forall_sublist.mpr fun {a b} hsub => ?_
    rcases hmem cus' hperm a (hsub.mem (by simp)) with rfl | rfl <;>
      rcases hmem cus' hperm b (hsub.mem (by simp)) with rfl | rfl <;> assumption
  have hkeys : fullKey fooMethod ≠ fullKey barStatic := by simp [fullKey, fooMethod, barStatic]
  refine ⟨typeOrder, inferInstance, hpairs ?_ ?_ ?_ ?_,
    Or.inr ⟨typeOrderMembersTypes, inferInstance, hpairs ?_ ?_ ?_ ?_⟩⟩
  iterate 4 exact ⟨by decide +kernel, fun h => absurd h (by decide +kernel)⟩
  · exact ⟨by decide +kernel, iff_of_true (by decide +kernel) rfl⟩
  · exact ⟨by decide +kernel, iff_of_false (by decide +kernel) hkeys⟩
  · exact ⟨by decide +kernel, iff_of_false (by decide +kernel) hkeys.symm⟩
  · exact ⟨by decide +kernel, iff_of_true (by decide +kernel) rfl⟩

end Pahole.SortOutput

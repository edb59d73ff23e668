import Pahole.Dwarves.Packed
import Pahole.Dwarves.TypeWalks
import Pahole.Support.SearchTree

/-!
# Sorted output

With `--sort` the structs and unions of all CUs are inserted into a tree as they come, and
printed from there at the end.  The first comparison does not look at the types of
members and takes structs that are otherwise equal for different ones; when it has met
such structs, all that were inserted are sorted again into another tree, with a second
comparison that looks at the types, but not at sizes and numbers of members.
-/

namespace Pahole.SortOutput

/-- `struct class_member`.  `typeName` is what `tag__name` has for the type, if `cu__type`
finds it. -/
structure SortMember where
  name : Option String
  isStatic : Bool
  bitOffset : ℕ
  bitfieldSize : ℕ
  typeName : Option String
  deriving DecidableEq

/-- An entry of `namespace.tags`: a data member or a base class, or something else. -/
inductive SortTag where
  | member (m : SortMember)
  | other
  deriving DecidableEq

/-- `struct type`, of a struct or union that has a name. -/
structure SortType where
  name : String
  size : ℕ
  tags : List SortTag
  deriving DecidableEq

namespace SortType

/-- `type__for_each_member` -/
def members (t : SortType) : List SortMember :=
  t.tags.filterMap fun tag =>
    match tag with
    | .member m => some m
    | .other => none

/-- `nr_members`, in 16 bits. -/
def nrMembers (t : SortType) : ℕ := (t.members.countP fun m => !m.isStatic) % 65536

end SortType

/-! ## The comparisons -/

/-- `(int)a - (int)b` and its sign. -/
def intCompare (a b : ℕ) : Ordering := compare (i32 ((a : ℤ) - b)) 0

/-- `strcmp` of the names, when both members have one. -/
def compareNames (a b : Option String) : Ordering :=
  match a, b with
  | some nameA, some nameB => compare nameA nameB
  | _, _ => .eq

/-- The loop of `type__compare_members`: members against whatever tags are next to each
other, `none` when it walks on to something that is not a member. -/
def compareMembers : List SortMember → List SortTag → Option Ordering
  | [], _ => some .eq
  | ma :: as, .member mb :: bs =>
      match (compareNames ma.name mb.name).then
          ((intCompare ma.bitOffset mb.bitOffset).then
            (intCompare ma.bitfieldSize mb.bitfieldSize)) with
      | .eq => compareMembers as bs
      | ret => some ret
  | _ :: _, _ => none

/-- The loop of `type__compare_members_types`, with names of types in buffers of 1024
bytes. -/
def compareMembersTypes : List SortMember → List SortTag → Option Ordering
  | [], _ => some .eq
  | ma :: as, .member mb :: bs =>
      match ma.typeName, mb.typeName with
      | some typeA, some typeB =>
          match (compareNames ma.name mb.name).then
              ((intCompare ma.bitOffset mb.bitOffset).then
                ((intCompare ma.bitfieldSize mb.bitfieldSize).then
                  (compare (snprintf 1024 typeA) (snprintf 1024 typeB)))) with
          | .eq => compareMembersTypes as bs
          | ret => some ret
      | some _, none => if mb.name = none then some .eq else some .gt
      | none, _ => some .lt
  | _ :: _, _ => none

/-- `type__compare` with `sort_output`, and whether it sets `need_resort`. -/
def typeCompare (a b : SortType) : Option (Ordering × Bool) :=
  match (compare a.name b.name).then
      ((intCompare a.size b.size).then (intCompare a.nrMembers b.nrMembers)) with
  | .eq =>
      if a.nrMembers = 0 then some (.eq, false)
      else
        (compareMembers a.members b.tags).map fun ret =>
          if ret = .eq then (.gt, true) else (ret, false)
  | ret => some (ret, false)

/-- `type__compare_members_types` -/
def typeCompareMembersTypes (a b : SortType) : Option Ordering :=
  match compare a.name b.name with
  | .eq => if a.nrMembers = 0 then some .eq else compareMembersTypes a.members b.tags
  | ret => some ret

/-! ## The two trees -/

/-- `structures__tree`, `structures__list` and `need_resort`. -/
structure Structures where
  tree : SearchTree SortType
  list : List SortType
  needResort : Bool

def Structures.empty : Structures := ⟨.leaf, [], false⟩

section Insert

variable (balance : SearchTree SortType → SearchTree SortType)

/-- `__structures__add` -/
def structuresAdd (s : Structures) (t : SortType) : Option Structures :=
  match s.tree.link (fun str => (typeCompare str t).map Prod.fst) t with
  | none => none
  | some (path, result) =>
      let needResort := s.needResort || path.any fun str => typeCompare str t = some (.gt, true)
      match result with
      | none => some { s with needResort := needResort }
      | some tree =>
          some { tree := balance tree, list := s.list ++ [t], needResort := needResort }

/-- The calls of `structures__add`, one after the other. -/
def addStructures : Structures → List SortType → Option Structures
  | s, [] => some s
  | s, t :: ts => (structuresAdd balance s t).bind fun s => addStructures s ts

/-- `print_ordered_classes`: the structs in the order in which they are printed. -/
def printOrderedClasses (s : Structures) : Option (List SortType) :=
  if s.needResort then
    (SearchTree.insertAll balance typeCompareMembersTypes .leaf s.list).map SearchTree.inorder
  else some s.tree.inorder

/-- The structs that `print_classes` inserts for the CUs, in the order of the CUs:
`classFilter` is `class__filter`. -/
def insertedTypes (classFilter : SortType → Bool) (cus : List (List SortType)) :
    List SortType :=
  cus.flatMap fun types => types.filter classFilter

/-- `pahole --sort` -/
def sortOutput (classFilter : SortType → Bool) (cus : List (List SortType)) :
    Option (List SortType) :=
  (addStructures balance .empty (insertedTypes classFilter cus)).bind
    (printOrderedClasses balance)

end Insert

/-! ## Printing -/

/-- The key that tells types apart: name, size, number of members, and names, bit offsets,
bitfield sizes and type names of the members. -/
abbrev FullKey := String × ℕ × ℕ × List (Option String × ℕ × ℕ × Option String)

def fullKey (t : SortType) : FullKey :=
  (t.name, t.size, t.nrMembers,
    t.members.map fun m => (m.name, m.bitOffset, m.bitfieldSize, m.typeName))

/-- Sorted output prints types of the CUs, one for each of their keys, and the same keys in the
same order for the CUs in any other order. -/
def ListsOnce (balance : SearchTree SortType → SearchTree SortType)
    (classFilter : SortType → Bool) (cus : List (List SortType)) : Prop :=
  ∃ printed, sortOutput balance classFilter cus = some printed ∧
    (∀ t ∈ printed, t ∈ insertedTypes classFilter cus) ∧
    (printed.map fullKey).Nodup ∧
    (∀ k, k ∈ printed.map fullKey ↔ k ∈ (insertedTypes classFilter cus).map fullKey) ∧
    ∀ cus', cus.Perm cus' → ∃ printed', sortOutput balance classFilter cus' = some printed' ∧
      printed'.map fullKey = printed.map fullKey

/-- A type all of whose members are static. -/
def empty (t : SortType) : Bool := t.nrMembers = 0

/-- `type__compare` returns what `order` says, but puts a type before an equal one with members
and sets `need_resort`; and it takes types for equal only if they have the same key. -/
structure Sorts (order : SortType → SortType → Ordering) (a b : SortType) : Prop where
  compare : typeCompare a b = some (SearchTree.probe order empty b a,
    decide (order a b = .eq ∧ empty a = false))
  dropped : typeCompare a b = some (.eq, false) → fullKey a = fullKey b

/-- `type__compare_members_types` returns what `order` says, and equality in it is equality of
keys. -/
structure Resorts (order : SortType → SortType → Ordering) (a b : SortType) : Prop where
  compare : typeCompareMembersTypes a b = some (order a b)
  equal : order a b = .eq ↔ fullKey a = fullKey b

/-- Equal types have no members. -/
def Distinct (order : SortType → SortType → Ordering) (xs : List SortType) : Prop :=
  xs.Pairwise fun a b => order a b = .eq → empty a = true

/-- The comparisons of a type with those inserted before it go by orders, the second one where it
is used. -/
def Sortable (xs : List SortType) : Prop :=
  ∃ order, ∃ _ : Std.TransCmp order, xs.Pairwise (Sorts order) ∧
    (Distinct order xs ∨ ∃ order', ∃ _ : Std.TransCmp order', xs.Pairwise (Resorts order'))

/-- The comparisons go by the same orders whatever the order of the CUs. -/
def SortableCus (classFilter : SortType → Bool) (cus : List (List SortType)) : Prop :=
  ∃ order, ∃ _ : Std.TransCmp order,
    (∀ cus', cus.Perm cus' → (insertedTypes classFilter cus').Pairwise (Sorts order)) ∧
    (Distinct order (insertedTypes classFilter cus) ∨ ∃ order', ∃ _ : Std.TransCmp order',
      ∀ cus', cus.Perm cus' → (insertedTypes classFilter cus').Pairwise (Resorts order'))

theorem SortableCus.sortable {classFilter : SortType → Bool} {cus : List (List SortType)}
    (h : SortableCus classFilter cus) : Sortable (insertedTypes classFilter cus) := by
  obtain ⟨order, htrans, hsorts, hrest⟩ := h
  refine ⟨order, htrans, hsorts cus (List.Perm.refl _), hrest.imp id ?_⟩
  rintro ⟨order', htrans', hresorts⟩
  exact ⟨order', htrans', hresorts cus (List.Perm.refl _)⟩

section Comparisons

variable {a b : SortType}

theorem intCompare_eq {a b : ℕ} (ha : a < 2147483648) (hb : b < 2147483648) :
    intCompare a b = compare a b := by
  have hsmall : i32 ((a : ℤ) - b) = (a : ℤ) - b := by
    unfold i32 u32
    split <;> omega
  unfold intCompare
  rw [hsmall]
  rcases Nat.lt_trichotomy a b with h | h | h
  · rw [Nat.compare_eq_lt.mpr h]
    exact compare_lt_iff_lt.mpr (by omega)
  · rw [Nat.compare_eq_eq.mpr h]
    exact compare_eq_iff_eq.mpr (by omega)
  · rw [Nat.compare_eq_gt.mpr h]
    exact compare_gt_iff_gt.mpr (by omega)

@[simp] theorem intCompare_self (a : ℕ) : intCompare a a = .eq := by
  rw [intCompare, sub_self]
  rfl

theorem SortType.nrMembers_lt (t : SortType) : t.nrMembers < 2147483648 :=
  (Nat.mod_lt _ (by decide)).trans (by decide)

@[simp] theorem compareNames_self (name : Option String) : compareNames name name = .eq := by
  cases name with
  | none => rfl
  | some name => exact (Std.ReflOrd.compare_self : compare name name = .eq)

/-- Types that `type__compare` does not tell apart have one name and as many members. -/
theorem typeCompare_heads {ret : Ordering} {flag : Bool} (h : typeCompare a b = some (ret, flag))
    (heq : ret = .eq ∨ flag = true) : a.name = b.name ∧ a.nrMembers = b.nrMembers := by
  unfold typeCompare at h
  split at h
  · rename_i hheads
    rw [Ordering.then_eq_eq, Ordering.then_eq_eq,
      intCompare_eq a.nrMembers_lt b.nrMembers_lt] at hheads
    exact ⟨Std.LawfulEqCmp.eq_of_compare hheads.1, compare_eq_iff_eq.mp hheads.2.2⟩
  · rename_i hne
    obtain ⟨hret, hflag⟩ := Prod.mk.inj (Option.some.inj h)
    rcases heq with heq | heq
    · exact absurd (hret.trans heq) hne
    · exact absurd (hflag.trans heq) Bool.false_ne_true

/-- Members are equal to tags that start with the same members. -/
theorem compareMembers_self {as : List SortMember} {tags : List SortTag} {ret : Ordering}
    (hkeys : as.map (fun m => (m.name, m.bitOffset, m.bitfieldSize, m.typeName)) =
      (SortType.members ⟨"", 0, tags⟩).map
        fun m => (m.name, m.bitOffset, m.bitfieldSize, m.typeName))
    (h : compareMembers as tags = some ret) : ret = .eq := by
  induction as generalizing tags with
  | nil => exact (Option.some.inj h).symm
  | cons a as ih =>
      cases tags with
      | nil => cases h
      | cons tag tags =>
          cases tag with
          | other => cases h
          | member b =>
              obtain ⟨hhere, hrest⟩ := List.cons.inj hkeys
              simp only [Prod.mk.injEq] at hhere
              obtain ⟨hname, hoffset, hsize, -⟩ := hhere
              simp only [compareMembers, hname, hoffset, hsize, compareNames_self,
                intCompare_self, Ordering.eq_then] at h
              exact ih hrest h

/-- `type__compare` returns 0 for types with the same key and no members, and sets `need_resort`
if they have members. -/
theorem typeCompare_of_fullKey_eq (hkey : fullKey a = fullKey b) {r : Ordering × Bool}
    (h : typeCompare a b = some r) : r = (.eq, false) ∧ empty a = true ∨ r = (.gt, true) := by
  have hname : a.name = b.name := congrArg (fun k => k.1) hkey
  have hsize : a.size = b.size := congrArg (fun k => k.2.1) hkey
  have hnr : a.nrMembers = b.nrMembers := congrArg (fun k => k.2.2.1) hkey
  have hheads : (compare a.name b.name).then
      ((intCompare a.size b.size).then (intCompare a.nrMembers b.nrMembers)) = .eq := by
    rw [hname, hsize, hnr, intCompare_self, intCompare_self, Std.ReflOrd.compare_self]
    rfl
  unfold typeCompare at h
  rw [hheads] at h
  dsimp only at h
  split at h
  · rename_i hzero
    exact Or.inl ⟨(Option.some.inj h).symm, decide_eq_true hzero⟩
  · obtain ⟨ret, hret, hr⟩ := Option.map_eq_some_iff.mp h
    obtain rfl := compareMembers_self (congrArg (fun k => k.2.2.2) hkey) hret
    exact Or.inr hr.symm

end Comparisons

/-- The consequences of `Sorts` that do not depend on which type is inserted first. -/
structure Classes (order : SortType → SortType → Ordering) (a b : SortType) : Prop where
  equal : fullKey a = fullKey b → order a b = .eq
  empty_eq : order a b = .eq → empty a = empty b
  dropped : order a b = .eq → empty a = true → fullKey a = fullKey b

section Classes

variable {order : SortType → SortType → Ordering} [Std.TransCmp order] {a b : SortType}
  {xs : List SortType}

theorem Classes.refl (a : SortType) : Classes order a a :=
  ⟨fun _ => Std.ReflCmp.compare_self, fun _ => rfl, fun _ _ => rfl⟩

theorem Classes.symm (h : Classes order a b) : Classes order b a where
  equal hkey := SearchTree.eq_comm_order (h.equal hkey.symm)
  empty_eq heq := (h.empty_eq (SearchTree.eq_comm_order heq)).symm
  dropped heq hempty := by
    have heq' := SearchTree.eq_comm_order heq
    exact (h.dropped heq' ((h.empty_eq heq').trans hempty)).symm

omit [Std.TransCmp order] in
theorem Sorts.classes (h : Sorts order a b) : Classes order a b where
  equal hkey := by
    rcases typeCompare_of_fullKey_eq hkey h.compare with ⟨hr, -⟩ | hr
    · have hprobe := congrArg Prod.fst hr
      unfold SearchTree.probe at hprobe
      cases hcase : order a b with
      | eq => rfl
      | lt => simp [hcase] at hprobe
      | gt => simp [hcase] at hprobe
    · exact (of_decide_eq_true (congrArg Prod.snd hr)).1
  empty_eq heq := by
    rw [empty, empty, (typeCompare_heads h.compare ?_).2]
    cases hempty : empty a with
    | true => exact Or.inl (by simp [SearchTree.probe, heq, hempty])
    | false => exact Or.inr (decide_eq_true ⟨heq, rfl⟩)
  dropped heq hempty := by
    refine h.dropped (h.compare.trans ?_)
    simp [SearchTree.probe, heq, hempty]

theorem classes_of_sorts (h : xs.Pairwise (Sorts order)) :
    ∀ a ∈ xs, ∀ b ∈ xs, Classes order a b := by
  have hsymm : Std.Symm (Classes order) := ⟨fun _ _ => Classes.symm⟩
  exact fun _ ha _ hb => List.Pairwise.forall_of_forall (fun a _ => Classes.refl a)
    (h.imp Sorts.classes) ha hb

/-- Whether equal types are told apart does not depend on their order. -/
theorem Distinct.perm {ys : List SortType} (hclasses : ∀ a ∈ xs, ∀ b ∈ xs, Classes order a b)
    (hperm : xs.Perm ys) (h : Distinct order xs) : Distinct order ys := by
  have hmem : xs.Pairwise fun a b => Classes order a b ∧ (order a b = .eq → empty a = true) :=
    (List.pairwise_iff_forall_sublist.mpr fun hsub =>
      hclasses _ (hsub.mem (by simp)) _ (hsub.mem (by simp))).and h
  have hsymm : ∀ {a b}, Classes order a b ∧ (order a b = .eq → empty a = true) →
      Classes order b a ∧ (order b a = .eq → empty b = true) := by
    rintro a b ⟨hab, h⟩
    refine ⟨hab.symm, fun hba => ?_⟩
    rw [← hab.empty_eq (SearchTree.eq_comm_order hba)]
    exact h (SearchTree.eq_comm_order hba)
  exact ((hperm.pairwise_iff hsymm).mp hmem).imp And.right

end Classes

/-- The invariant of the insertions: the tree is sorted and has the types of the list, these
cover all keys inserted, and `need_resort` is set exactly if `Distinct` fails. -/
structure Added (order : SortType → SortType → Ordering) (xs : List SortType) (s : Structures) :
    Prop where
  sorted : SearchTree.Sorted order s.tree.inorder
  perm : s.tree.inorder.Perm s.list
  sublist : s.list.Sublist xs
  cover : ∀ x ∈ xs, ∃ v ∈ s.list, fullKey v = fullKey x
  once : s.list.Pairwise fun a b => order a b = .eq → empty a = false
  needResort : s.needResort = true ↔ ¬Distinct order xs

theorem Added.empty {order : SortType → SortType → Ordering} :
    Added order [] Structures.empty where
  sorted := by simp [Structures.empty, SearchTree.inorder, SearchTree.Sorted]
  perm := List.Perm.refl _
  sublist := List.Sublist.refl _
  cover := by simp
  once := List.Pairwise.nil
  needResort := by simp [Structures.empty, Distinct]

section Add

variable {balance : SearchTree SortType → SearchTree SortType}
  {order : SortType → SortType → Ordering} [Std.TransCmp order]

/-- `need_resort` is set if and only if a type is inserted after an equal one with members. -/
theorem Added.needResort_iff {xs : List SortType} {s : Structures} (h : Added order xs s)
    {t : SortType} {path : List SortType} (hsorts : (xs ++ [t]).Pairwise (Sorts order))
    (hmem : ∀ v ∈ path, v ∈ s.tree.inorder)
    (heq : (∃ v ∈ s.tree.inorder, order v t = .eq) → ∃ v ∈ path, order v t = .eq) :
    (s.needResort || path.any fun str => typeCompare str t = some (.gt, true)) = true ↔
      ¬Distinct order (xs ++ [t]) := by
  have hin : ∀ v ∈ s.tree.inorder, v ∈ xs :=
    fun v hv => h.sublist.mem (h.perm.mem_iff.mp hv)
  have hclasses := classes_of_sorts (List.pairwise_append.mp hsorts).1
  have hcross : ∀ v ∈ xs, Sorts order v t :=
    fun v hv => (List.pairwise_append.mp hsorts).2.2 v hv t (List.mem_singleton_self t)
  have hpath : (path.any fun str => typeCompare str t = some (.gt, true)) = true ↔
      ∃ x ∈ xs, order x t = .eq ∧ SortOutput.empty x = false := by
    have hflag : ∀ v ∈ xs, typeCompare v t = some (.gt, true) ↔
        order v t = .eq ∧ SortOutput.empty v = false := by
      intro v hv
      rw [(hcross v hv).compare]
      cases hcase : order v t <;> cases hempty : SortOutput.empty v <;>
        simp [SearchTree.probe, hcase, hempty]
    rw [List.any_eq_true]
    constructor
    · rintro ⟨v, hv, hset⟩
      have hv' := hin v (hmem v hv)
      exact ⟨v, hv', (hflag v hv').mp (of_decide_eq_true hset)⟩
    · rintro ⟨x, hx, hxt, hnonempty⟩
      obtain ⟨v, hv, hkey⟩ := h.cover x hx
      have hvx := (hclasses v (h.sublist.mem hv) x hx).equal hkey
      obtain ⟨w, hw, hwt⟩ :=
        heq ⟨v, h.perm.mem_iff.mpr hv, Std.TransCmp.eq_trans hvx hxt⟩
      have hw' := hin w (hmem w hw)
      refine ⟨w, hw, decide_eq_true ((hflag w hw').mpr ⟨hwt, ?_⟩)⟩
      rw [(hcross w hw').classes.empty_eq hwt, ← (hcross x hx).classes.empty_eq hxt]
      exact hnonempty
  have hdistinct : Distinct order (xs ++ [t]) ↔ Distinct order xs ∧
      ∀ x ∈ xs, order x t = .eq → SortOutput.empty x = true := by
    simp [Distinct, List.pairwise_append]
  rw [Bool.or_eq_true, h.needResort, hpath, hdistinct]
  constructor
  · rintro (hold | ⟨x, hx, hxt, hnonempty⟩) ⟨hxs, hall⟩
    · exact hold hxs
    · exact absurd (hall x hx hxt) (by simp [hnonempty])
  · intro hnot
    by_contra hno
    rw [not_or] at hno
    refine hnot ⟨not_not.mp hno.1, fun x hx hxt => ?_⟩
    by_contra hnonempty
    exact hno.2 ⟨x, hx, hxt, by simpa using hnonempty⟩

/-- Adding a type whose comparisons go by the order succeeds and keeps `Added`. -/
theorem Added.step (hbalance : ∀ t, (balance t).inorder = t.inorder) {xs : List SortType}
    {s : Structures} (h : Added order xs s) {t : SortType}
    (hsorts : (xs ++ [t]).Pairwise (Sorts order)) :
    ∃ s', structuresAdd balance s t = some s' ∧ Added order (xs ++ [t]) s' := by
  have hin : ∀ v ∈ s.tree.inorder, v ∈ xs :=
    fun v hv => h.sublist.mem (h.perm.mem_iff.mp hv)
  have hclasses := classes_of_sorts (List.pairwise_append.mp hsorts).1
  have hcross : ∀ v ∈ xs, Sorts order v t :=
    fun v hv => (List.pairwise_append.mp hsorts).2.2 v hv t (List.mem_singleton_self t)
  have hcompare : ∀ v ∈ s.tree.inorder, (typeCompare v t).map Prod.fst =
      some (SearchTree.probe order SortOutput.empty t v) := by
    intro v hv
    rw [(hcross v (hin v hv)).compare]
    rfl
  obtain ⟨path, result, hlink, hspec⟩ := SearchTree.link_spec h.sorted
    (fun a ha b hb hab => (hclasses a (hin a ha) b (hin b hb)).empty_eq hab) hcompare
  have hneed := h.needResort_iff hsorts hspec.path_mem hspec.path_eq
  cases result with
  | none =>
      refine ⟨_, by simp only [structuresAdd, hlink]; rfl, ?_⟩
      exact
        { sorted := h.sorted
          perm := h.perm
          sublist := h.sublist.trans (List.sublist_append_left _ _)
          cover := by
            intro x hx
            rcases List.mem_append.mp hx with hx | hx
            · exact h.cover x hx
            · obtain rfl := List.mem_singleton.mp hx
              obtain ⟨v, hv, hvt, hempty⟩ := hspec.found rfl
              exact ⟨v, h.perm.mem_iff.mp hv, (hcross v (hin v hv)).classes.dropped hvt hempty⟩
          once := h.once
          needResort := hneed }
  | some tree =>
      refine ⟨_, by simp only [structuresAdd, hlink]; rfl, ?_⟩
      exact
        { sorted := by
            rw [hbalance]
            exact hspec.sorted h.sorted rfl
          perm := by
            rw [hbalance]
            refine (hspec.perm rfl).trans ((List.Perm.cons t h.perm).trans ?_)
            exact (List.perm_append_singleton t s.list).symm
          sublist := h.sublist.append (List.Sublist.refl _)
          cover := by
            intro x hx
            rcases List.mem_append.mp hx with hx | hx
            · obtain ⟨v, hv, hkey⟩ := h.cover x hx
              exact ⟨v, List.mem_append_left _ hv, hkey⟩
            · exact ⟨x, List.mem_append_right _ hx, rfl⟩
          once := by
            refine List.pairwise_append.mpr ⟨h.once, by simp, fun v hv w hw hvw => ?_⟩
            obtain rfl := List.mem_singleton.mp hw
            exact (hspec.linked tree rfl).1 v (h.perm.mem_iff.mpr hv) hvw
          needResort := hneed }

/-- Adding types whose comparisons go by the order succeeds and keeps `Added`. -/
theorem Added.run (hbalance : ∀ t, (balance t).inorder = t.inorder) {ts xs : List SortType}
    {s : Structures} (h : Added order xs s) (hsorts : (xs ++ ts).Pairwise (Sorts order)) :
    ∃ s', addStructures balance s ts = some s' ∧ Added order (xs ++ ts) s' := by
  induction ts generalizing xs s with
  | nil => exact ⟨s, rfl, by simpa using h⟩
  | cons t ts ih =>
      rw [List.append_cons] at hsorts ⊢
      obtain ⟨s₁, hs₁, hadded⟩ := h.step hbalance (List.pairwise_append.mp hsorts).1
      obtain ⟨s', hs', hadded'⟩ := ih hadded hsorts
      exact ⟨s', by simp [addStructures, hs₁, hs'], hadded'⟩

end Add

/-! ## Sorted output -/

/-- The printed types are inserted ones in strictly ascending order that cover all keys
inserted. -/
structure Printed (order : SortType → SortType → Ordering) (xs printed : List SortType) :
    Prop where
  mem : ∀ v ∈ printed, v ∈ xs
  cover : ∀ x ∈ xs, ∃ v ∈ printed, fullKey v = fullKey x
  ascending : SearchTree.Ascending order printed

section Printed

variable {order : SortType → SortType → Ordering} {xs ys printed printed' : List SortType}

theorem Printed.mem_keys (h : Printed order xs printed) (k) :
    k ∈ printed.map fullKey ↔ k ∈ xs.map fullKey := by
  constructor
  · intro hk
    obtain ⟨v, hv, rfl⟩ := List.mem_map.mp hk
    exact List.mem_map_of_mem (h.mem v hv)
  · intro hk
    obtain ⟨x, hx, rfl⟩ := List.mem_map.mp hk
    obtain ⟨v, hv, hkey⟩ := h.cover x hx
    rw [← hkey]
    exact List.mem_map_of_mem hv

theorem Printed.nodup (h : Printed order xs printed)
    (horder : ∀ a ∈ xs, ∀ b ∈ xs, fullKey a = fullKey b → order a b = .eq) :
    (printed.map fullKey).Nodup := by
  refine List.pairwise_map.mpr (List.pairwise_iff_forall_sublist.mpr fun {a b} hsub hkey => ?_)
  have hlt := List.pairwise_iff_forall_sublist.mp h.ascending hsub
  rw [horder a (h.mem a (hsub.mem (by simp))) b (h.mem b (hsub.mem (by simp))) hkey] at hlt
  exact absurd hlt (by simp)

/-- Two permutations of the same types are printed with the same keys. -/
theorem Printed.unique [Std.TransCmp order] (h : Printed order xs printed)
    (h' : Printed order ys printed') (hperm : xs.Perm ys)
    (hkeys : ∀ a ∈ xs, ∀ b ∈ xs, order a b = .eq ↔ fullKey a = fullKey b) :
    printed.map fullKey = printed'.map fullKey := by
  have hmem' : ∀ b ∈ printed', b ∈ xs := fun b hb => hperm.mem_iff.mpr (h'.mem b hb)
  refine h.ascending.map_eq h'.ascending (fun a ha => ?_) (fun b hb => ?_) ?_
  · obtain ⟨b, hb, hkey⟩ := h'.cover a (hperm.mem_iff.mp (h.mem a ha))
    exact ⟨b, hb, (hkeys a (h.mem a ha) b (hmem' b hb)).mpr hkey.symm⟩
  · obtain ⟨a, ha, hkey⟩ := h.cover b (hmem' b hb)
    exact ⟨a, ha, (hkeys a (h.mem a ha) b (hmem' b hb)).mpr hkey⟩
  · intro a ha b hb hab
    exact (hkeys a (h.mem a ha) b (hmem' b hb)).mp hab

end Printed

section Output

variable {balance : SearchTree SortType → SearchTree SortType}
  {order order' : SortType → SortType → Ordering} [Std.TransCmp order] [Std.TransCmp order']
  {xs : List SortType} {classFilter : SortType → Bool} {cus : List (List SortType)}

/-- Equal types have the same key where the first comparison has the last word. -/
theorem Distinct.eq_iff (hsorts : xs.Pairwise (Sorts order)) (hdistinct : Distinct order xs)
    {a b : SortType} (ha : a ∈ xs) (hb : b ∈ xs) :
    order a b = .eq ↔ fullKey a = fullKey b := by
  have hclasses := classes_of_sorts hsorts
  by_cases hab : a = b
  · rw [hab]
    exact iff_of_true Std.ReflCmp.compare_self rfl
  · refine ⟨fun heq => (hclasses a ha b hb).dropped heq ?_, (hclasses a ha b hb).equal⟩
    have hpair : xs.Pairwise fun a b => order a b = .eq → empty a = true ∧ empty b = true := by
      refine (hsorts.and hdistinct).imp fun {a b} h heq => ⟨h.2 heq, ?_⟩
      rw [← h.1.classes.empty_eq heq]
      exact h.2 heq
    have hsymm : Std.Symm fun a b => order a b = .eq → empty a = true ∧ empty b = true :=
      ⟨fun _ _ h heq => (h (SearchTree.eq_comm_order heq)).symm⟩
    exact (List.Pairwise.forall hpair ha hb hab heq).1

theorem Resorts.eq_iff (hresorts : xs.Pairwise (Resorts order')) {a b : SortType} (ha : a ∈ xs)
    (hb : b ∈ xs) : order' a b = .eq ↔ fullKey a = fullKey b := by
  have hsymm : Std.Symm fun a b => order' a b = .eq ↔ fullKey a = fullKey b :=
    ⟨fun _ _ h => Std.OrientedCmp.eq_comm.trans (h.trans eq_comm)⟩
  have hall := List.Pairwise.forall_of_forall
    (R := fun a b => order' a b = .eq ↔ fullKey a = fullKey b)
    (fun _ _ => iff_of_true Std.ReflCmp.compare_self rfl) (hresorts.imp Resorts.equal)
  exact hall ha hb

/-- Everything is printed, in the order of the comparison that has the last word. -/
theorem Added.printed (hbalance : ∀ t, (balance t).inorder = t.inorder)
    {s : Structures} (h : Added order xs s)
    (hresorts : Distinct order xs ∨ xs.Pairwise (Resorts order')) :
    ∃ printed, printOrderedClasses balance s = some printed ∧
      (Distinct order xs → Printed order xs printed) ∧
      (¬Distinct order xs → Printed order' xs printed) := by
  cases hneed : s.needResort with
  | false =>
      have hdistinct : Distinct order xs := by
        by_contra hnot
        rw [h.needResort.mpr hnot] at hneed
        exact absurd hneed (by simp)
      refine ⟨s.tree.inorder, by simp [printOrderedClasses, hneed], fun _ => ?_,
        fun hnot => absurd hdistinct hnot⟩
      have hne : s.list.Pairwise fun a b => order a b ≠ .eq := by
        refine ((hdistinct.sublist h.sublist).and h.once).imp fun {a b} hab heq => ?_
        exact absurd ((hab.1 heq).symm.trans (hab.2 heq)) (by simp)
      have hne' : s.tree.inorder.Pairwise fun a b => order a b ≠ .eq :=
        (h.perm.pairwise_iff fun {_ _} hab heq => hab (SearchTree.eq_comm_order heq)).mpr hne
      exact
        { mem := fun v hv => h.sublist.mem (h.perm.mem_iff.mp hv)
          cover := by
            intro x hx
            obtain ⟨v, hv, hkey⟩ := h.cover x hx
            exact ⟨v, h.perm.mem_iff.mpr hv, hkey⟩
          ascending := SearchTree.ascending_of_sorted h.sorted hne' }
  | true =>
      have hnot := h.needResort.mp hneed
      have hresort := hresorts.resolve_left hnot
      obtain ⟨t', ht', hasc, hmem, hcover⟩ := SearchTree.insertAll_spec hbalance
        (t := .leaf) List.Pairwise.nil (by simp [SearchTree.inorder])
        ((hresort.imp Resorts.compare).sublist h.sublist)
      refine ⟨t'.inorder, by simp [printOrderedClasses, hneed, ht'],
        fun hdistinct => absurd hdistinct hnot, fun _ => ?_⟩
      have hmem' : ∀ v ∈ t'.inorder, v ∈ xs := by
        intro v hv
        have hv' := hmem v hv
        rw [SearchTree.inorder, List.nil_append] at hv'
        exact h.sublist.mem hv'
      exact
        { mem := hmem'
          cover := by
            intro x hx
            obtain ⟨v, hv, hkey⟩ := h.cover x hx
            obtain ⟨w, hw, hwv⟩ := hcover v (by simpa [SearchTree.inorder] using hv)
            refine ⟨w, hw, ?_⟩
            rw [← hkey]
            exact (Resorts.eq_iff hresort (hmem' w hw) (h.sublist.mem hv)).mp hwv
          ascending := hasc }

theorem insertedTypes_perm {cus' : List (List SortType)} (hperm : cus.Perm cus') :
    (insertedTypes classFilter cus).Perm (insertedTypes classFilter cus') :=
  hperm.flatMap_right _

theorem sortOutput_printed (hbalance : ∀ t, (balance t).inorder = t.inorder)
    (hsorts : (insertedTypes classFilter cus).Pairwise (Sorts order))
    (hresorts : Distinct order (insertedTypes classFilter cus) ∨
      (insertedTypes classFilter cus).Pairwise (Resorts order')) :
    ∃ printed, sortOutput balance classFilter cus = some printed ∧
      (Distinct order (insertedTypes classFilter cus) →
        Printed order (insertedTypes classFilter cus) printed) ∧
      (¬Distinct order (insertedTypes classFilter cus) →
        Printed order' (insertedTypes classFilter cus) printed) := by
  obtain ⟨s, hs, hadded⟩ := (Added.empty : Added order [] .empty).run hbalance
    (by rw [List.nil_append]; exact hsorts)
  rw [List.nil_append] at hadded
  obtain ⟨printed, hprint, hspec⟩ := hadded.printed hbalance hresorts
  exact ⟨printed, by simp [sortOutput, hs, hprint], hspec⟩

/-- Sorted output lists every key once if the comparisons go by orders. -/
theorem SortableCus.listsOnce (hbalance : ∀ t, (balance t).inorder = t.inorder)
    (h : SortableCus classFilter cus) : ListsOnce balance classFilter cus := by
  obtain ⟨order, _, hsorts, hrest⟩ := h
  obtain ⟨order', _, hresorts⟩ : ∃ order' : SortType → SortType → Ordering,
      ∃ _ : Std.TransCmp order', Distinct order (insertedTypes classFilter cus) ∨
        ∀ cus', cus.Perm cus' → (insertedTypes classFilter cus').Pairwise (Resorts order') := by
    rcases hrest with hdistinct | ⟨order', htrans, hresorts⟩
    · exact ⟨order, inferInstance, Or.inl hdistinct⟩
    · exact ⟨order', htrans, Or.inr hresorts⟩
  have hclasses := classes_of_sorts (hsorts cus (List.Perm.refl _))
  have hdistinct_iff : ∀ cus', cus.Perm cus' → (Distinct order (insertedTypes classFilter cus) ↔
      Distinct order (insertedTypes classFilter cus')) := fun cus' hperm =>
    ⟨Distinct.perm hclasses (insertedTypes_perm hperm), Distinct.perm
      (classes_of_sorts (hsorts cus' hperm)) (insertedTypes_perm hperm).symm⟩
  have hrun : ∀ cus', cus.Perm cus' → ∃ printed,
      sortOutput balance classFilter cus' = some printed ∧
        (Distinct order (insertedTypes classFilter cus) →
          Printed order (insertedTypes classFilter cus') printed) ∧
        (¬Distinct order (insertedTypes classFilter cus) →
          Printed order' (insertedTypes classFilter cus') printed) := by
    intro cus' hperm
    rw [hdistinct_iff cus' hperm]
    refine sortOutput_printed hbalance (hsorts cus' hperm) (hresorts.imp ?_ fun h => h cus' hperm)
    exact (hdistinct_iff cus' hperm).mp
  obtain ⟨printed, hprint, hfirst, hsecond⟩ := hrun cus (List.Perm.refl _)
  by_cases hdistinct : Distinct order (insertedTypes classFilter cus)
  · have hspec := hfirst hdistinct
    have hkeys : ∀ a ∈ insertedTypes classFilter cus, ∀ b ∈ insertedTypes classFilter cus,
        order a b = .eq ↔ fullKey a = fullKey b :=
      fun a ha b hb => Distinct.eq_iff (hsorts cus (List.Perm.refl _)) hdistinct ha hb
    refine ⟨printed, hprint, hspec.mem, hspec.nodup fun a ha b hb => (hkeys a ha b hb).mpr,
      hspec.mem_keys, fun cus' hperm => ?_⟩
    obtain ⟨printed', hprint', hfirst', -⟩ := hrun cus' hperm
    exact ⟨printed', hprint',
      (hspec.unique (hfirst' hdistinct) (insertedTypes_perm hperm) hkeys).symm⟩
  · have hspec := hsecond hdistinct
    have hkeys : ∀ a ∈ insertedTypes classFilter cus, ∀ b ∈ insertedTypes classFilter cus,
        order' a b = .eq ↔ fullKey a = fullKey b := fun a ha b hb =>
      Resorts.eq_iff (hresorts.resolve_left hdistinct cus (List.Perm.refl _)) ha hb
    refine ⟨printed, hprint, hspec.mem, hspec.nodup fun a ha b hb => (hkeys a ha b hb).mpr,
      hspec.mem_keys, fun cus' hperm => ?_⟩
    obtain ⟨printed', hprint', -, hsecond'⟩ := hrun cus' hperm
    exact ⟨printed', hprint',
      (hspec.unique (hsecond' hdistinct) (insertedTypes_perm hperm) hkeys).symm⟩

end Output

end Pahole.SortOutput

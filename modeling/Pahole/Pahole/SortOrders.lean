import Pahole.Pahole.SortOutput

/-!
# Structs that sorted output can compare

Structs whose entries are members that are not static, of types that are found, can be compared if
those of one name leave the same members unnamed, and sorted again if those of one name have the
same size and as many members or are not the same in a member.
-/

namespace Pahole.SortOutput

/-! ## The orders that the comparisons stand for -/

/-- Members by name, offset and width. -/
def memberOrder : SortMember → SortMember → Ordering :=
  compareLex (compareOn SortMember.name)
    (compareLex (compareOn SortMember.bitOffset) (compareOn SortMember.bitfieldSize))

/-- Members by name, offset, width and type. -/
def memberTypeOrder : SortMember → SortMember → Ordering :=
  compareLex memberOrder (compareOn SortMember.typeName)

/-- Types by what `type__compare` looks at. -/
def typeOrder : SortType → SortType → Ordering :=
  compareLex (compareOn SortType.name)
    (compareLex (compareOn SortType.size) (compareLex (compareOn SortType.nrMembers)
      fun a b => List.compareLex memberOrder a.members b.members))

/-- Types by what `type__compare_members_types` looks at. -/
def typeOrderMembersTypes : SortType → SortType → Ordering :=
  compareLex (compareOn SortType.name)
    fun a b => List.compareLex memberTypeOrder a.members b.members

instance : Std.TransCmp memberOrder := by
  unfold memberOrder
  infer_instance

instance : Std.TransCmp memberTypeOrder := by
  unfold memberTypeOrder
  infer_instance

instance (order : SortMember → SortMember → Ordering) [Std.TransCmp order] :
    Std.TransCmp fun a b : SortType => List.compareLex order a.members b.members where
  eq_swap := by
    intro a b
    exact Std.OrientedCmp.eq_swap
  isLE_trans := by
    intro a b c hab hbc
    exact Std.TransCmp.isLE_trans hab hbc

instance : Std.TransCmp typeOrder := by
  unfold typeOrder
  infer_instance

instance : Std.TransCmp typeOrderMembersTypes := by
  unfold typeOrderMembersTypes
  infer_instance

/-- A member that is not static, of a type that is found and has a name that fits, with
numbers that fit in an `int`. -/
structure SortMember.Fit (m : SortMember) : Prop where
  notStatic : m.isStatic = false
  bitOffset : m.bitOffset < 2147483648
  bitfieldSize : m.bitfieldSize < 2147483648
  typeName : ∃ name, m.typeName = some name ∧ name.toList.length < 1024

/-- The entries of the type are members that fit, fewer than 65536, and its size fits an `int`.
-/
structure SortType.Plain (t : SortType) : Prop where
  tags : ∀ tag ∈ t.tags, ∃ m, tag = .member m ∧ m.Fit
  few : t.tags.length < 65536
  size : t.size < 2147483648

/-- A member is unnamed in one exactly when the member at its place is in the other. -/
def NamedAlike (a b : SortType) : Prop :=
  ∀ p ∈ a.members.zip b.members, p.1.name = none ↔ p.2.name = none

/-- Two members at the same place compare as different. -/
def DifferWithin (a b : SortType) : Prop :=
  ∃ p ∈ a.members.zip b.members, memberTypeOrder p.1 p.2 ≠ .eq

section Comparisons

theorem compareNames_eq {a b : Option String} (h : a = none ↔ b = none) :
    compareNames a b = compare a b := by
  cases a with
  | none =>
      obtain rfl := h.mp rfl
      rfl
  | some a =>
      cases b with
      | none => exact absurd (h.mpr rfl) (by simp)
      | some b => rfl

theorem snprintf_of_lt {name : String} (h : name.toList.length < 1024) :
    snprintf 1024 name = name := by
  rw [snprintf, List.take_of_length_le (by omega), String.ofList_toList]

theorem memberOrder_eq {a b : SortMember} (ha : a.Fit) (hb : b.Fit)
    (hnamed : a.name = none ↔ b.name = none) :
    (compareNames a.name b.name).then ((intCompare a.bitOffset b.bitOffset).then
      (intCompare a.bitfieldSize b.bitfieldSize)) = memberOrder a b := by
  rw [compareNames_eq hnamed, intCompare_eq ha.bitOffset hb.bitOffset,
    intCompare_eq ha.bitfieldSize hb.bitfieldSize]
  rfl

theorem memberTypeOrder_eq {a b : SortMember} (ha : a.Fit) (hb : b.Fit)
    (hnamed : a.name = none ↔ b.name = none) {typeA typeB : String}
    (hA : a.typeName = some typeA) (hB : b.typeName = some typeB) :
    (compareNames a.name b.name).then ((intCompare a.bitOffset b.bitOffset).then
      ((intCompare a.bitfieldSize b.bitfieldSize).then
        (compare (snprintf 1024 typeA) (snprintf 1024 typeB)))) = memberTypeOrder a b := by
  have hshort : ∀ {m : SortMember} {name : String}, m.Fit → m.typeName = some name →
      snprintf 1024 name = name := by
    intro m name hm hname
    obtain ⟨name', hname', hlen⟩ := hm.typeName
    obtain rfl := Option.some.inj (hname.symm.trans hname')
    exact snprintf_of_lt hlen
  have htypes : compare (snprintf 1024 typeA) (snprintf 1024 typeB) =
      compare a.typeName b.typeName := by
    rw [hshort ha hA, hshort hb hB, hA, hB]
    rfl
  rw [htypes, memberTypeOrder, compareLex, ← memberOrder_eq ha hb hnamed]
  cases compareNames a.name b.name <;> cases intCompare a.bitOffset b.bitOffset <;> rfl

/-- Members against as many members are ordered as `memberOrder` has it. -/
theorem compareMembers_eq {as bs : List SortMember} (hlength : as.length = bs.length)
    (ha : ∀ m ∈ as, m.Fit) (hb : ∀ m ∈ bs, m.Fit)
    (hnamed : ∀ p ∈ as.zip bs, p.1.name = none ↔ p.2.name = none) :
    compareMembers as (bs.map .member) = some (List.compareLex memberOrder as bs) := by
  induction as generalizing bs with
  | nil =>
      obtain rfl := List.eq_nil_of_length_eq_zero hlength.symm
      rfl
  | cons a as ih =>
      cases bs with
      | nil => simp at hlength
      | cons b bs =>
          rw [List.zip_cons_cons] at hnamed
          have hrest := ih (Nat.succ.inj hlength) (fun m hm => ha m (List.mem_cons_of_mem _ hm))
            (fun m hm => hb m (List.mem_cons_of_mem _ hm))
            fun p hp => hnamed p (List.mem_cons_of_mem _ hp)
          have hhere := memberOrder_eq (ha a List.mem_cons_self) (hb b List.mem_cons_self)
            (hnamed (a, b) List.mem_cons_self)
          rw [List.map_cons, compareMembers, hhere, hrest, List.compareLex_cons_cons]
          cases memberOrder a b <;> rfl

/-- With types, members are ordered as `memberTypeOrder` has it if they are as many or not
the same as far as both go. -/
theorem compareMembersTypes_eq {as bs : List SortMember}
    (hlength : as.length = bs.length ∨ ∃ p ∈ as.zip bs, memberTypeOrder p.1 p.2 ≠ .eq)
    (ha : ∀ m ∈ as, m.Fit) (hb : ∀ m ∈ bs, m.Fit)
    (hnamed : ∀ p ∈ as.zip bs, p.1.name = none ↔ p.2.name = none) :
    compareMembersTypes as (bs.map .member) =
      some (List.compareLex memberTypeOrder as bs) := by
  induction as generalizing bs with
  | nil =>
      obtain rfl : bs = [] := by
        rcases hlength with hlength | ⟨p, hp, -⟩
        · exact List.eq_nil_of_length_eq_zero hlength.symm
        · simp at hp
      rfl
  | cons a as ih =>
      cases bs with
      | nil => simp at hlength
      | cons b bs =>
          rw [List.zip_cons_cons] at hnamed hlength
          have haFit := ha a List.mem_cons_self
          have hbFit := hb b List.mem_cons_self
          obtain ⟨typeA, hA, -⟩ := haFit.typeName
          obtain ⟨typeB, hB, -⟩ := hbFit.typeName
          have hhere := memberTypeOrder_eq haFit hbFit (hnamed (a, b) List.mem_cons_self) hA hB
          rw [List.map_cons, compareMembersTypes, hA, hB]
          simp only [hhere, List.compareLex_cons_cons]
          cases hcase : memberTypeOrder a b with
          | lt => rfl
          | gt => rfl
          | eq =>
              refine ih ?_ (fun m hm => ha m (List.mem_cons_of_mem _ hm))
                (fun m hm => hb m (List.mem_cons_of_mem _ hm))
                fun p hp => hnamed p (List.mem_cons_of_mem _ hp)
              rcases hlength with hlength | ⟨p, hp, hne⟩
              · exact Or.inl (Nat.succ.inj hlength)
              · rcases List.mem_cons.mp hp with rfl | hp
                · exact absurd hcase hne
                · exact Or.inr ⟨p, hp, hne⟩

namespace SortType.Plain

variable {t : SortType}

theorem tags_eq (h : t.Plain) : t.tags = t.members.map .member := by
  obtain ⟨name, size, tags⟩ := t
  have hall := h.tags
  clear h
  unfold members
  induction tags with
  | nil => rfl
  | cons tag tags ih =>
      obtain ⟨m, rfl, -⟩ := hall tag List.mem_cons_self
      simpa using ih fun tag htag => hall tag (List.mem_cons_of_mem _ htag)

theorem fit (h : t.Plain) : ∀ m ∈ t.members, m.Fit := by
  intro m hm
  have htag : SortTag.member m ∈ t.tags := by
    rw [h.tags_eq]
    exact List.mem_map_of_mem hm
  obtain ⟨m', heq, hfit⟩ := h.tags _ htag
  obtain rfl := SortTag.member.inj heq
  exact hfit

theorem nrMembers_eq (h : t.Plain) : t.nrMembers = t.members.length := by
  have hfew : t.members.length < 65536 := by
    have hlength := congrArg List.length h.tags_eq
    rw [List.length_map] at hlength
    rw [← hlength]
    exact h.few
  have hall : (t.members.countP fun m => !m.isStatic) = t.members.length :=
    List.countP_eq_length.mpr fun m hm => by simp [(h.fit m hm).notStatic]
  rw [nrMembers, hall, Nat.mod_eq_of_lt hfew]

end SortType.Plain

/-- Two plain types whose unnamed members are at the same places. -/
structure Comparable (a b : SortType) : Prop where
  left : a.Plain
  right : b.Plain
  named : NamedAlike a b

theorem Comparable.symm {a b : SortType} (h : Comparable a b) : Comparable b a where
  left := h.right
  right := h.left
  named := by
    intro p hp
    have hswap : (p.2, p.1) ∈ a.members.zip b.members := by
      rw [← List.zip_swap] at hp
      obtain ⟨q, hq, rfl⟩ := List.mem_map.mp hp
      exact hq
    exact (h.named _ hswap).symm

/-- `type__compare` goes by `typeOrder`, but takes equal types that have members for
different ones. -/
theorem typeCompare_eq {a b : SortType} (h : a.name = b.name → Comparable a b) :
    typeCompare a b = some (SearchTree.probe typeOrder empty b a,
      decide (typeOrder a b = .eq ∧ empty a = false)) := by
  have hsizes : (compare a.name b.name).then
      ((intCompare a.size b.size).then (intCompare a.nrMembers b.nrMembers)) =
        (compare a.name b.name).then
          ((compare a.size b.size).then (compare a.nrMembers b.nrMembers)) := by
    cases hname : compare a.name b.name with
    | lt => rfl
    | gt => rfl
    | eq =>
        have hc := h (Std.LawfulEqCmp.eq_of_compare hname)
        rw [intCompare_eq hc.left.size hc.right.size,
          intCompare_eq a.nrMembers_lt b.nrMembers_lt]
  have horder : typeOrder a b = ((compare a.name b.name).then
      ((compare a.size b.size).then (compare a.nrMembers b.nrMembers))).then
        (List.compareLex memberOrder a.members b.members) := by
    unfold typeOrder compareLex compareOn
    cases compare a.name b.name <;> cases compare a.size b.size <;> rfl
  unfold typeCompare SearchTree.probe
  rw [hsizes, horder]
  cases hcase : (compare a.name b.name).then
      ((compare a.size b.size).then (compare a.nrMembers b.nrMembers)) with
  | lt => simp
  | gt => simp
  | eq =>
      rw [Ordering.then_eq_eq, Ordering.then_eq_eq] at hcase
      obtain ⟨hname, -, hnr⟩ := hcase
      have hc := h (Std.LawfulEqCmp.eq_of_compare hname)
      have hlength : a.members.length = b.members.length := by
        rw [← hc.left.nrMembers_eq, ← hc.right.nrMembers_eq]
        exact compare_eq_iff_eq.mp hnr
      have hmembers := compareMembers_eq hlength hc.left.fit hc.right.fit hc.named
      rw [← hc.right.tags_eq] at hmembers
      by_cases hempty : a.nrMembers = 0
      · have hnil : a.members = [] := by
          rw [hc.left.nrMembers_eq] at hempty
          exact List.eq_nil_of_length_eq_zero hempty
        have hnil' : b.members = [] := by
          rw [hnil] at hlength
          exact List.eq_nil_of_length_eq_zero hlength.symm
        simp [hempty, empty, hnil, hnil', List.compareLex_nil_nil]
      · simp only [hempty, if_false, hmembers, Option.map_some, empty, Ordering.eq_then]
        cases List.compareLex memberOrder a.members b.members <;> simp

/-- The types have the same size and the same number of members, or members at the same place
that differ. -/
def Resortable (a b : SortType) : Prop :=
  a.size = b.size ∧ a.nrMembers = b.nrMembers ∨ DifferWithin a b

theorem typeCompareMembersTypes_eq {a b : SortType}
    (h : a.name = b.name → Comparable a b ∧ Resortable a b) :
    typeCompareMembersTypes a b = some (typeOrderMembersTypes a b) := by
  unfold typeCompareMembersTypes typeOrderMembersTypes compareLex compareOn
  cases hname : compare a.name b.name with
  | lt => rfl
  | gt => rfl
  | eq =>
      obtain ⟨hc, hr⟩ := h (Std.LawfulEqCmp.eq_of_compare hname)
      have hlength : a.members.length = b.members.length ∨
          ∃ p ∈ a.members.zip b.members, memberTypeOrder p.1 p.2 ≠ .eq := by
        refine hr.imp (fun hsame => ?_) id
        rw [← hc.left.nrMembers_eq, ← hc.right.nrMembers_eq]
        exact hsame.2
      have hmembers := compareMembersTypes_eq hlength hc.left.fit hc.right.fit hc.named
      rw [← hc.right.tags_eq] at hmembers
      by_cases hempty : a.nrMembers = 0
      · have hnil : a.members = [] := by
          rw [hc.left.nrMembers_eq] at hempty
          exact List.eq_nil_of_length_eq_zero hempty
        have hnil' : b.members = [] := by
          rw [hnil] at hlength
          rcases hlength with hlength | ⟨p, hp, -⟩
          · exact List.eq_nil_of_length_eq_zero hlength.symm
          · simp at hp
        simp [hempty, hnil, hnil', List.compareLex_nil_nil]
      · simpa [hempty] using hmembers

end Comparisons

section Keys

variable {a b : SortType}

theorem memberTypeOrder_eq_iff {a b : SortMember} :
    memberTypeOrder a b = .eq ↔ (a.name, a.bitOffset, a.bitfieldSize, a.typeName) =
      (b.name, b.bitOffset, b.bitfieldSize, b.typeName) := by
  unfold memberTypeOrder memberOrder compareLex compareOn
  simp [Ordering.then_eq_eq, Std.LawfulEqCmp.compare_eq_iff_eq, and_assoc]

theorem compareLex_members_eq_iff {as bs : List SortMember} :
    List.compareLex memberTypeOrder as bs = .eq ↔
      as.map (fun m => (m.name, m.bitOffset, m.bitfieldSize, m.typeName)) =
        bs.map fun m => (m.name, m.bitOffset, m.bitfieldSize, m.typeName) := by
  induction as generalizing bs with
  | nil => cases bs <;> simp [List.compareLex_nil_nil, List.compareLex_nil_cons]
  | cons a as ih =>
      cases bs with
      | nil => simp [List.compareLex_cons_nil]
      | cons b bs =>
          rw [List.compareLex_cons_cons, Ordering.then_eq_eq, memberTypeOrder_eq_iff, ih,
            List.map_cons, List.map_cons, List.cons.injEq]

theorem typeOrderMembersTypes_eq_iff :
    typeOrderMembersTypes a b = .eq ↔ a.name = b.name ∧
      (fullKey a).2.2.2 = (fullKey b).2.2.2 := by
  unfold typeOrderMembersTypes compareLex compareOn
  rw [Ordering.then_eq_eq, compareLex_members_eq_iff, Std.LawfulEqCmp.compare_eq_iff_eq]
  rfl

theorem typeOrder_eq (h : typeOrder a b = .eq) :
    a.name = b.name ∧ a.size = b.size ∧ a.nrMembers = b.nrMembers := by
  unfold typeOrder compareLex compareOn at h
  simp only [Ordering.then_eq_eq, Std.LawfulEqCmp.compare_eq_iff_eq] at h
  exact ⟨h.1, h.2.1, h.2.2.1⟩

/-- Equal types without members have the same key. -/
theorem fullKey_eq_of_empty (hc : a.name = b.name → Comparable a b) (h : typeOrder a b = .eq)
    (hempty : empty a = true) : fullKey a = fullKey b := by
  obtain ⟨hname, hsize, hnr⟩ := typeOrder_eq h
  have hcomp := hc hname
  have hzero : a.nrMembers = 0 := of_decide_eq_true hempty
  have hnil : a.members = [] := by
    rw [hcomp.left.nrMembers_eq] at hzero
    exact List.eq_nil_of_length_eq_zero hzero
  have hnil' : b.members = [] := by
    rw [hnr, hcomp.right.nrMembers_eq] at hzero
    exact List.eq_nil_of_length_eq_zero hzero
  rw [fullKey, fullKey, hname, hsize, hnr, hnil, hnil']

/-- Types that the second comparison takes for equal have the same key, if it can tell. -/
theorem fullKey_eq_of_resortable (hr : a.name = b.name → Resortable a b)
    (h : typeOrderMembersTypes a b = .eq) : fullKey a = fullKey b := by
  obtain ⟨hname, hkeys⟩ := typeOrderMembersTypes_eq_iff.mp h
  rcases hr hname with ⟨hsize, hnr⟩ | ⟨p, hp, hne⟩
  · simp only [fullKey] at hkeys ⊢
    rw [hname, hsize, hnr, hkeys]
  · obtain ⟨i, hi, hget⟩ := List.mem_iff_getElem.mp hp
    rw [List.getElem_zip] at hget
    have hat := congrArg (fun l => l[i]?) hkeys
    rw [List.length_zip] at hi
    simp only [fullKey, List.getElem?_map] at hat
    rw [List.getElem?_eq_getElem (by omega), List.getElem?_eq_getElem (by omega)] at hat
    refine absurd (memberTypeOrder_eq_iff.mpr ?_) hne
    rw [← hget]
    exact Option.some.inj hat

/-- `type__compare` goes by `typeOrder` for two types that are comparable if they have one name.
-/
theorem sorts_of_comparable (h : a.name = b.name → Comparable a b) : Sorts typeOrder a b where
  compare := typeCompare_eq h
  dropped hdropped := by
    have hprobe := congrArg (Option.map Prod.fst) ((typeCompare_eq h).symm.trans hdropped)
    have hret : SearchTree.probe typeOrder empty b a = .eq := Option.some.inj hprobe
    unfold SearchTree.probe at hret
    cases hcase : typeOrder a b with
    | lt => simp [hcase] at hret
    | gt => simp [hcase] at hret
    | eq =>
        refine fullKey_eq_of_empty h hcase ?_
        cases hempty : empty a with
        | true => rfl
        | false => simp [hcase, hempty] at hret

/-- The second comparison goes by `typeOrderMembersTypes`. -/
theorem resorts_of_resortable (h : a.name = b.name → Comparable a b ∧ Resortable a b) :
    Resorts typeOrderMembersTypes a b where
  compare := typeCompareMembersTypes_eq h
  equal := by
    refine ⟨fullKey_eq_of_resortable fun hname => (h hname).2, fun hkey => ?_⟩
    exact typeOrderMembersTypes_eq_iff.mpr
      ⟨congrArg (fun k => k.1) hkey, congrArg (fun k => k.2.2.2) hkey⟩

end Keys

section Symmetric

variable {a b : SortType} {xs : List SortType} {classFilter : SortType → Bool}
  {cus : List (List SortType)}

theorem comparable_symm (h : a.name = b.name → Comparable a b) :
    b.name = a.name → Comparable b a :=
  fun hname => (h hname.symm).symm

theorem resortable_symm (h : a.name = b.name → Comparable a b ∧ Resortable a b) :
    b.name = a.name → Comparable b a ∧ Resortable b a := by
  intro hname
  refine ⟨(h hname.symm).1.symm, ?_⟩
  rcases (h hname.symm).2 with ⟨hsize, hnr⟩ | ⟨p, hp, hne⟩
  · exact Or.inl ⟨hsize.symm, hnr.symm⟩
  · refine Or.inr ⟨(p.2, p.1), ?_, fun heq => hne (SearchTree.eq_comm_order heq)⟩
    rw [← List.zip_swap]
    exact List.mem_map_of_mem hp

/-- Types that can be compared are sorted, if no type that has members is equal to another or if
those of one name can be told apart. -/
theorem sortableCus_of_comparable
    (hcomparable : (insertedTypes classFilter cus).Pairwise
      fun a b => a.name = b.name → Comparable a b)
    (hresortable : Distinct typeOrder (insertedTypes classFilter cus) ∨
      (insertedTypes classFilter cus).Pairwise
        fun a b => a.name = b.name → Comparable a b ∧ Resortable a b) :
    SortableCus classFilter cus := by
  refine ⟨typeOrder, inferInstance, fun cus' hperm => ?_, hresortable.imp id fun h => ?_⟩
  · exact (((insertedTypes_perm hperm).pairwise_iff comparable_symm).mp hcomparable).imp
      sorts_of_comparable
  · refine ⟨typeOrderMembersTypes, inferInstance, fun cus' hperm => ?_⟩
    exact (((insertedTypes_perm hperm).pairwise_iff resortable_symm).mp h).imp
      resorts_of_resortable

end Symmetric

/-- A balancing that only blackens the root. -/
def blackenRoot : SearchTree SortType → SearchTree SortType
  | .leaf => .leaf
  | .node _ left value right => .node false left value right

theorem inorder_blackenRoot (t : SearchTree SortType) : (blackenRoot t).inorder = t.inorder := by
  cases t <;> rfl

def intMember (name : String) (bitOffset : ℕ) : SortMember where
  name := some name
  isStatic := false
  bitOffset := bitOffset
  bitfieldSize := 0
  typeName := some "int"

/-- `struct foo { int a; };` -/
def fooOne : SortType := ⟨"foo", 4, [.member (intMember "a" 0)]⟩

theorem sortable_fooOne : Sortable (insertedTypes (fun _ => true) [[fooOne], [fooOne]]) := by
  have hfit : (intMember "a" 0).Fit := ⟨rfl, by decide, by decide, "int", rfl, by decide⟩
  have hplain : fooOne.Plain :=
    { tags := by simpa [fooOne] using hfit
      few := by decide
      size := by decide }
  have hcomparable : Comparable fooOne fooOne :=
    ⟨hplain, hplain, by simp [NamedAlike, fooOne, SortType.members]⟩
  refine (sortableCus_of_comparable ?_ (Or.inr ?_)).sortable
  · simpa [insertedTypes] using hcomparable
  · simpa [insertedTypes, Resortable] using hcomparable

end Pahole.SortOutput

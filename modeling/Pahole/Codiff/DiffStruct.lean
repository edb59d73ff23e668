import Pahole.Dwarves.Holes
import Pahole.Dwarves.TypeWalks

/-!
# Comparing structs

`diff_struct` of `codiff.c` looks the struct of an old CU up in a new one, and marks it
as changed when the two differ.  Members are paired by name; those that have none, base
classes and anonymous structs and unions, are paired by their position, for which there
is one counter.
-/

namespace Pahole.Codiff

/-- `struct class_member`, as far as it is compared. -/
structure DiffMember where
  name : Option String
  bitfieldOffset : ℤ
  /-- What `tag__name` has for the type, if `cu__type` finds it. -/
  typeName : Option String
  layout : PackMember
  deriving DecidableEq

/-- `struct class` -/
structure DiffClass where
  name : Option String
  declaration : Bool
  size : ℕ
  members : List DiffMember
  deriving DecidableEq

namespace DiffMember

/-- `DW_TAG_inheritance`, where the others are `DW_TAG_member`. -/
def isInheritance (m : DiffMember) : Bool := m.layout.isInheritance

/-- An unnamed member of a kind. -/
def isUnnamed (isInheritance : Bool) (m : DiffMember) : Bool :=
  m.isInheritance == isInheritance && m.name.isNone

end DiffMember

namespace DiffClass

/-- `nr_members`, in 16 bits. -/
def nrMembers (c : DiffClass) : ℕ := (c.members.countP fun m => !m.layout.isStatic) % 65536

/-- `nr_static_members`, in 16 bits. -/
def nrStaticMembers (c : DiffClass) : ℕ := (c.members.countP fun m => m.layout.isStatic) % 65536

/-- `class__find_holes` -/
def findHoles (c : DiffClass) : ClassHoles :=
  (PackType.mk (c.members.map DiffMember.layout) c.size 0).classHoles

end DiffClass

/-! ## The comparison -/

/-- `check_print_change`, with the names of the types in buffers of 128 bytes. -/
def checkPrintChange (old new : DiffMember) : Bool :=
  match old.typeName, new.typeName with
  | some oldName, some newName =>
      old.layout.byteSize ≠ new.layout.byteSize ||
        old.layout.byteOffset ≠ new.layout.byteOffset ||
        old.bitfieldOffset ≠ new.bitfieldOffset ||
        old.layout.bitfieldSize ≠ new.layout.bitfieldSize ||
        snprintf 128 oldName ≠ snprintf 128 newName
  | _, _ => false

/-- `type__find_member_by_name` -/
def findMemberByName (members : List DiffMember) (name : String) : Option DiffMember :=
  members.find? fun m => !m.isInheritance && m.name == some name

/-- The loop of `class__find_pair_member`. -/
def nthUnnamed (isInheritance : Bool) : (nrAnonymous : ℕ) → List DiffMember → Option DiffMember
  | _, [] => none
  | nrAnonymous, m :: members =>
      if m.isUnnamed isInheritance then
        if nrAnonymous - 1 = 0 then some m
        else nthUnnamed isInheritance (nrAnonymous - 1) members
      else nthUnnamed isInheritance nrAnonymous members

/-- `class__find_pair_member`, with the counter it leaves. -/
def findPairMember (members : List DiffMember) (pair : DiffMember) (nrAnonymous : ℕ) :
    Option DiffMember × ℕ :=
  match pair.name with
  | some name => (findMemberByName members name, nrAnonymous)
  | none => (nthUnnamed pair.isInheritance (nrAnonymous + 1) members, nrAnonymous + 1)

/-- The variables of `check_print_members_changes`. -/
structure PairState where
  changes : Bool
  nrAnonymous : ℕ
  nrTwinsFound : ℕ

/-- One round of the loop of `check_print_members_changes`. -/
def checkMember (members : List DiffMember) (s : PairState) (m : DiffMember) : PairState :=
  match findPairMember members m s.nrAnonymous with
  | (some twin, nr) =>
      { changes := s.changes || checkPrintChange m twin, nrAnonymous := nr,
        nrTwinsFound := (s.nrTwinsFound + 1) % 65536 }
  | (none, nr) => { changes := true, nrAnonymous := nr, nrTwinsFound := s.nrTwinsFound }

/-- `check_print_members_changes` -/
def checkMembersChanges (old new : DiffClass) : Bool :=
  let s := old.members.foldl (checkMember new.members) ⟨false, 0, 0⟩
  if s.nrTwinsFound = new.nrMembers + new.nrStaticMembers then s.changes else true

/-- `cu__find_struct_by_name` among the structs of a CU, without declarations. -/
def findStructByName (structs : List DiffClass) (name : String) : Option DiffClass :=
  structs.find? fun c => c.name == some name && !c.declaration

/-- `diff` of `diff_struct`. -/
def structDiff (old new : DiffClass) : Bool :=
  old.size ≠ new.size || old.nrMembers ≠ new.nrMembers || checkMembersChanges old new ||
    old.findHoles.padding ≠ new.findHoles.padding ||
    old.findHoles.nrHoles ≠ new.findHoles.nrHoles ||
    old.findHoles.nrBitHoles ≠ new.findHoles.nrBitHoles

/-- `diff_struct`: the `diff_info` that it attaches to the struct, if any, is that of the
twin. -/
def diffStruct (newStructs : Option (List DiffClass)) (old : DiffClass) : Option DiffClass :=
  match old.name with
  | none => none
  | some name =>
      if old.size = 0 then none
      else
        match newStructs.bind fun structs => findStructByName structs name with
        | none => none
        | some new =>
            if new.size = 0 then none else if structDiff old new then some new else none

/-! ## Pairs of members -/

/-- The key that pairs members: the name, or the kind and the position among the unnamed ones.
-/
inductive MemberKey where
  | named (name : String)
  | unnamed (isInheritance : Bool) (position : ℕ)
  deriving DecidableEq

/-- The key of a member that comes after the ones `before`. -/
def memberKey (before : List DiffMember) (m : DiffMember) : MemberKey :=
  match m.name with
  | some name => .named name
  | none => .unnamed m.isInheritance (before.countP (DiffMember.isUnnamed m.isInheritance))

/-- The members with their keys. -/
def keysFrom (before : List DiffMember) : List DiffMember → List (MemberKey × DiffMember)
  | [] => []
  | m :: members => (memberKey before m, m) :: keysFrom (before ++ [m]) members

def DiffClass.keys (c : DiffClass) : List (MemberKey × DiffMember) := keysFrom [] c.members

/-- The key that the counter looks a member up by: the counter goes on with every unnamed
member, whatever its kind. -/
def counterKey (before : List DiffMember) (m : DiffMember) : MemberKey :=
  match m.name with
  | some name => .named name
  | none => .unnamed m.isInheritance (before.countP fun n => n.name.isNone)

/-- The members with the keys that they are looked up by. -/
def counterKeysFrom (before : List DiffMember) :
    List DiffMember → List (MemberKey × DiffMember)
  | [] => []
  | m :: members => (counterKey before m, m) :: counterKeysFrom (before ++ [m]) members

def DiffClass.counterKeys (c : DiffClass) : List (MemberKey × DiffMember) :=
  counterKeysFrom [] c.members

/-- Two members differ in size, offset, bitfield or type. -/
def Differ (m n : DiffMember) : Prop :=
  m.layout.byteSize ≠ n.layout.byteSize ∨ m.layout.byteOffset ≠ n.layout.byteOffset ∨
    m.bitfieldOffset ≠ n.bitfieldOffset ∨ m.layout.bitfieldSize ≠ n.layout.bitfieldSize ∨
    m.typeName ≠ n.typeName

/-- The struct has changed: its size, a member that is only on one side, or a member
that differs. -/
def Changed (old new : DiffClass) : Prop :=
  old.size ≠ new.size ∨
    (∃ key m, (key, m) ∈ old.keys ∧ ∀ n, (key, n) ∉ new.keys) ∨
    (∃ key n, (key, n) ∈ new.keys ∧ ∀ m, (key, m) ∉ old.keys) ∨
    ∃ key m n, (key, m) ∈ old.keys ∧ (key, n) ∈ new.keys ∧ Differ m n

section Keys

variable {before members : List DiffMember} {m n : DiffMember}

theorem length_keysFrom : (keysFrom before members).length = members.length := by
  induction members generalizing before with
  | nil => rfl
  | cons m members ih => simp [keysFrom, ih]

theorem map_snd_keysFrom : (keysFrom before members).map Prod.snd = members := by
  induction members generalizing before with
  | nil => rfl
  | cons m members ih => simp [keysFrom, ih]

theorem named_mem_keysFrom {name : String} :
    (.named name, n) ∈ keysFrom before members ↔ n ∈ members ∧ n.name = some name := by
  induction members generalizing before with
  | nil => simp [keysFrom]
  | cons m members ih =>
      have hhead : (MemberKey.named name, n) = (memberKey before m, m) ↔
          n = m ∧ n.name = some name := by
        unfold memberKey
        cases hname : m.name with
        | none =>
            simp only [Prod.mk.injEq, reduceCtorEq, false_and, false_iff, not_and]
            rintro rfl
            simp [hname]
        | some own =>
            simp only [Prod.mk.injEq, MemberKey.named.injEq]
            constructor
            · rintro ⟨rfl, rfl⟩
              exact ⟨rfl, hname⟩
            · rintro ⟨rfl, h⟩
              exact ⟨(Option.some.inj (hname.symm.trans h)).symm, rfl⟩
      rw [keysFrom, List.mem_cons, hhead, ih, List.mem_cons]
      tauto

/-- The positions of the members that come later are higher. -/
theorem unnamed_mem_keysFrom_le {kind : Bool} {position : ℕ}
    (h : (.unnamed kind position, n) ∈ keysFrom before members) :
    before.countP (DiffMember.isUnnamed kind) ≤ position := by
  induction members generalizing before with
  | nil => simp [keysFrom] at h
  | cons m members ih =>
      rw [keysFrom, List.mem_cons] at h
      rcases h with h | h
      · obtain ⟨hkey, rfl⟩ := Prod.mk.inj h
        unfold memberKey at hkey
        cases hname : n.name with
        | some own => simp [hname] at hkey
        | none =>
            simp only [hname, MemberKey.unnamed.injEq] at hkey
            obtain ⟨rfl, rfl⟩ := hkey
            exact le_refl _
      · have := ih h
        rw [List.countP_append] at this
        omega

/-- The n-th unnamed member of a kind is the one that has the position in its key. -/
theorem nthUnnamed_eq_some_iff {kind : Bool} {r : ℕ} :
    nthUnnamed kind (r + 1) members = some n ↔
      (.unnamed kind (before.countP (DiffMember.isUnnamed kind) + r), n) ∈
        keysFrom before members := by
  induction members generalizing before r with
  | nil => simp [nthUnnamed, keysFrom]
  | cons m members ih =>
      rw [keysFrom, List.mem_cons, nthUnnamed]
      by_cases hkind : m.isUnnamed kind = true
      · have hown : memberKey before m =
            .unnamed kind (before.countP (DiffMember.isUnnamed kind)) := by
          unfold DiffMember.isUnnamed at hkind
          rw [Bool.and_eq_true, beq_iff_eq, Option.isNone_iff_eq_none] at hkind
          unfold memberKey
          simp only [hkind.1, hkind.2]
        have hcount : (before ++ [m]).countP (DiffMember.isUnnamed kind) =
            before.countP (DiffMember.isUnnamed kind) + 1 := by
          simp [List.countP_append, hkind]
        rw [if_pos hkind, hown]
        cases r with
        | zero =>
            have hlater : ¬(MemberKey.unnamed kind (before.countP (DiffMember.isUnnamed kind)), n) ∈
                keysFrom (before ++ [m]) members := by
              intro h
              have := unnamed_mem_keysFrom_le h
              omega
            simp only [Nat.add_zero, Nat.zero_add, Nat.sub_self, if_true, Option.some.injEq,
              Prod.mk.injEq, true_and, hlater, or_false]
            exact eq_comm
        | succ r =>
            have hsum : before.countP (DiffMember.isUnnamed kind) + (r + 1) =
                (before ++ [m]).countP (DiffMember.isUnnamed kind) + r := by omega
            have hfirst : (MemberKey.unnamed kind
                (before.countP (DiffMember.isUnnamed kind) + (r + 1)), n) ≠
                (.unnamed kind (before.countP (DiffMember.isUnnamed kind)), m) := by
              intro h
              have := (MemberKey.unnamed.inj (Prod.mk.inj h).1).2
              omega
            rw [Nat.add_sub_cancel, if_neg (Nat.succ_ne_zero r), or_iff_right hfirst, hsum, ← ih]
      · have hcount : (before ++ [m]).countP (DiffMember.isUnnamed kind) =
            before.countP (DiffMember.isUnnamed kind) := by
          simp [List.countP_append, hkind]
        have hown : ∀ position, (MemberKey.unnamed kind position, n) ≠ (memberKey before m, m) := by
          intro position h
          apply hkind
          obtain ⟨hkey, rfl⟩ := Prod.mk.inj h
          unfold memberKey at hkey
          cases hname : n.name with
          | some own => simp [hname] at hkey
          | none =>
              simp only [hname, MemberKey.unnamed.injEq] at hkey
              simp [DiffMember.isUnnamed, hkey.1, hname]
        rw [if_neg hkind, @ih (before ++ [m]), hcount]
        simp [hown]

/-- The names of the members that have one. -/
def memberNames (members : List DiffMember) : List String := members.filterMap DiffMember.name

theorem nodup_keysFrom (h : (memberNames members).Nodup) :
    ((keysFrom before members).map Prod.fst).Nodup := by
  induction members generalizing before with
  | nil => simp [keysFrom]
  | cons m members ih =>
      have hrest : (memberNames members).Nodup := by
        unfold memberNames at h ⊢
        cases hname : m.name with
        | none => simpa [hname] using h
        | some name =>
            rw [List.filterMap_cons_some hname] at h
            exact h.of_cons
      rw [keysFrom, List.map_cons, List.nodup_cons]
      refine ⟨?_, ih hrest⟩
      intro hmem
      obtain ⟨⟨key, n⟩, hn, hkey⟩ := List.mem_map.mp hmem
      subst hkey
      unfold memberKey at hn
      cases hname : m.name with
      | some name =>
          simp only [hname] at hn
          obtain ⟨hin, hnname⟩ := named_mem_keysFrom.mp hn
          unfold memberNames at h
          rw [List.filterMap_cons_some hname, List.nodup_cons] at h
          exact h.1 (List.mem_filterMap.mpr ⟨n, hin, hnname⟩)
      | none =>
          simp only [hname] at hn
          have hle := unnamed_mem_keysFrom_le hn
          have hown : m.isUnnamed m.isInheritance = true := by
            simp [DiffMember.isUnnamed, hname]
          rw [List.countP_append, List.countP_singleton, if_pos hown] at hle
          omega

/-- If the member names are distinct, at most one member has a given key. -/
theorem eq_of_mem_keys {c : DiffClass} (h : (memberNames c.members).Nodup) {key : MemberKey}
    (hm : (key, m) ∈ c.keys) (hn : (key, n) ∈ c.keys) : m = n := by
  have hnodup : (c.keys.map Prod.fst).Nodup := nodup_keysFrom h
  exact congrArg Prod.snd (List.inj_on_of_nodup_map hnodup hm hn rfl)

end Keys

/-! ## The changes that the comparison finds -/

/-- Two structs whose members are named, and whose types are found and named, so that the
comparison can tell them apart. -/
structure Comparable (old new : DiffClass) : Prop where
  oldNames : (memberNames old.members).Nodup
  newNames : (memberNames new.members).Nodup
  /-- base classes have no name -/
  newBases : ∀ m ∈ new.members, m.isInheritance = true → m.name = none
  /-- there are not both unnamed base classes and other unnamed members -/
  oneKind : ∀ m ∈ old.members, ∀ n ∈ old.members, m.name = none → n.name = none →
    m.isInheritance = n.isInheritance
  oldTypes : ∀ m ∈ old.members, ∃ name, m.typeName = some name ∧ name.toList.length < 128
  newTypes : ∀ m ∈ new.members, ∃ name, m.typeName = some name ∧ name.toList.length < 128
  oldFew : old.members.length < 65536
  newFew : new.members.length < 65536

section Members

variable {old new : DiffClass} {before members : List DiffMember} {m n : DiffMember}

theorem snprintf_eq_self {len : ℕ} {text : String} (h : text.toList.length < len) :
    snprintf len text = text := by
  unfold snprintf
  rw [List.take_of_length_le (by omega), String.ofList_toList]

/-- A change is seen when the types are found and their names fit. -/
theorem checkPrintChange_iff
    (hm : ∃ name, m.typeName = some name ∧ name.toList.length < 128)
    (hn : ∃ name, n.typeName = some name ∧ name.toList.length < 128) :
    checkPrintChange m n = true ↔ Differ m n := by
  obtain ⟨oldName, hold, holdLen⟩ := hm
  obtain ⟨newName, hnew, hnewLen⟩ := hn
  simp only [checkPrintChange, Differ, hold, hnew, snprintf_eq_self holdLen,
    snprintf_eq_self hnewLen]
  simp [or_assoc]

theorem findMemberByName_eq_some_iff (hnames : (memberNames new.members).Nodup)
    (hbases : ∀ m ∈ new.members, m.isInheritance = true → m.name = none) {name : String} :
    findMemberByName new.members name = some n ↔ (.named name, n) ∈ new.keys := by
  have hkeys : (MemberKey.named name, n) ∈ new.keys ↔ n ∈ new.members ∧ n.name = some name :=
    named_mem_keysFrom
  rw [hkeys]
  constructor
  · intro h
    have hfound := List.find?_some h
    rw [Bool.and_eq_true, beq_iff_eq] at hfound
    exact ⟨List.mem_of_find?_eq_some h, hfound.2⟩
  · rintro ⟨hn, hname⟩
    have hdata : (!n.isInheritance && n.name == some name) = true := by
      have hown : n.isInheritance = false := by
        cases hkind : n.isInheritance with
        | false => rfl
        | true => exact absurd (hbases n hn hkind) (by simp [hname])
      simp [hown, hname]
    cases hfind : findMemberByName new.members name with
    | none => exact absurd hdata (List.find?_eq_none.mp hfind n hn)
    | some n' =>
        have hfound := List.find?_some hfind
        rw [Bool.and_eq_true, beq_iff_eq] at hfound
        have hn' : (MemberKey.named name, n') ∈ new.keys :=
          named_mem_keysFrom.mpr ⟨List.mem_of_find?_eq_some hfind, hfound.2⟩
        rw [eq_of_mem_keys hnames hn' (hkeys.mpr ⟨hn, hname⟩)]

/-- `class__find_pair_member` finds the member whose key is the `counterKey`. -/
theorem findPairMember_eq_some_iff (hnames : (memberNames new.members).Nodup)
    (hbases : ∀ m ∈ new.members, m.isInheritance = true → m.name = none) {nrAnonymous : ℕ}
    (hcount : nrAnonymous = before.countP fun n => n.name.isNone) :
    (findPairMember new.members m nrAnonymous).1 = some n ↔
      (counterKey before m, n) ∈ new.keys := by
  unfold findPairMember counterKey
  cases hname : m.name with
  | some name => exact findMemberByName_eq_some_iff hnames hbases
  | none =>
      have hiff := @nthUnnamed_eq_some_iff [] new.members n m.isInheritance nrAnonymous
      rw [List.countP_nil, Nat.zero_add] at hiff
      rw [← hcount]
      exact hiff

/-- `class__find_pair_member` adds one to the counter for an unnamed member. -/
theorem findPairMember_counter {nrAnonymous : ℕ} :
    (findPairMember members m nrAnonymous).2 =
      nrAnonymous + if m.name = none then 1 else 0 := by
  unfold findPairMember
  cases m.name <;> simp

/-- A member counts as a change: it has no twin, or one that differs. -/
def Unmatched (new : DiffClass) (key : MemberKey) (m : DiffMember) : Prop :=
  (∀ n, (key, n) ∉ new.keys) ∨ ∃ n, (key, n) ∈ new.keys ∧ checkPrintChange m n = true

/-- A turn of the loop over the old members notes a change if and only if the member is
unmatched. -/
theorem changes_checkMember_iff (hnames : (memberNames new.members).Nodup)
    (hbases : ∀ m ∈ new.members, m.isInheritance = true → m.name = none) {s : PairState}
    (hs : s.nrAnonymous = before.countP fun n => n.name.isNone) :
    (checkMember new.members s m).changes = true ↔
      s.changes = true ∨ Unmatched new (counterKey before m) m := by
  have htwin : ∀ n, (findPairMember new.members m s.nrAnonymous).1 = some n ↔
      (counterKey before m, n) ∈ new.keys :=
    fun n => findPairMember_eq_some_iff hnames hbases hs
  unfold checkMember Unmatched
  cases hpair : findPairMember new.members m s.nrAnonymous with
  | mk twin nr =>
      rw [hpair] at htwin
      cases twin with
      | none =>
          simp only [true_iff]
          exact Or.inr (Or.inl fun n hn => by simpa using (htwin n).mpr hn)
      | some twin =>
          have hin := (htwin twin).mp rfl
          have hpresent : ¬∀ n, (counterKey before m, n) ∉ new.keys := fun h => h twin hin
          have hunique : (∃ n, (counterKey before m, n) ∈ new.keys ∧
              checkPrintChange m n = true) ↔ checkPrintChange m twin = true := by
            constructor
            · rintro ⟨n, hn, hcheck⟩
              rwa [eq_of_mem_keys hnames hin hn]
            · exact fun h => ⟨twin, hin, h⟩
          rw [Bool.or_eq_true, or_iff_right hpresent, hunique]

/-- A turn of the loop counts the unnamed members up. -/
theorem nrAnonymous_checkMember {s : PairState}
    (hs : s.nrAnonymous = before.countP fun n => n.name.isNone) :
    (checkMember members s m).nrAnonymous =
      (before ++ [m]).countP fun n => n.name.isNone := by
  have hcopy : (checkMember members s m).nrAnonymous =
      (findPairMember members m s.nrAnonymous).2 := by
    unfold checkMember
    cases hpair : findPairMember members m s.nrAnonymous with
    | mk twin nr => cases twin <;> rfl
  rw [hcopy, findPairMember_counter, hs, List.countP_append, List.countP_singleton]
  cases m.name <;> simp

/-- A turn of the loop that notes no change counts a twin, in 16 bits. -/
theorem nrTwinsFound_checkMember {s : PairState}
    (h : (checkMember members s m).changes = false) :
    (checkMember members s m).nrTwinsFound = (s.nrTwinsFound + 1) % 65536 := by
  unfold checkMember at h ⊢
  cases hpair : findPairMember members m s.nrAnonymous with
  | mk twin nr =>
      rw [hpair] at h
      cases twin with
      | none => exact absurd h (by simp)
      | some twin => rfl

theorem nrTwinsFound_checkMember_lt {s : PairState} (hlt : s.nrTwinsFound < 65536) :
    (checkMember members s m).nrTwinsFound < 65536 := by
  unfold checkMember
  cases hpair : findPairMember members m s.nrAnonymous with
  | mk twin nr =>
      cases twin with
      | none => exact hlt
      | some twin => exact Nat.mod_lt _ (by norm_num)

/-- The loop over the old members notes a change if and only if a member is unmatched, and
counts all members as twins if it notes none. -/
theorem foldl_checkMember (hnames : (memberNames new.members).Nodup)
    (hbases : ∀ m ∈ new.members, m.isInheritance = true → m.name = none) {s : PairState}
    (hs : s.nrAnonymous = before.countP fun n => n.name.isNone) (hlt : s.nrTwinsFound < 65536) :
    ((members.foldl (checkMember new.members) s).changes = true ↔
      s.changes = true ∨
        ∃ key m, (key, m) ∈ counterKeysFrom before members ∧ Unmatched new key m) ∧
    ((members.foldl (checkMember new.members) s).changes = false →
      (members.foldl (checkMember new.members) s).nrTwinsFound =
        (s.nrTwinsFound + members.length) % 65536) := by
  induction members generalizing before s with
  | nil =>
      simp only [List.foldl_nil, counterKeysFrom, List.not_mem_nil, false_and, exists_false, or_false,
        true_and, List.length_nil, Nat.add_zero]
      exact fun _ => (Nat.mod_eq_of_lt hlt).symm
  | cons m members ih =>
      obtain ⟨hiff, hnum⟩ := ih (nrAnonymous_checkMember hs) (nrTwinsFound_checkMember_lt hlt)
      rw [List.foldl_cons]
      refine ⟨?_, fun hfalse => ?_⟩
      · rw [hiff, changes_checkMember_iff hnames hbases hs, counterKeysFrom]
        constructor
        · rintro ((h | h) | ⟨key, n, hn, hun⟩)
          · exact Or.inl h
          · exact Or.inr ⟨_, m, List.mem_cons_self, h⟩
          · exact Or.inr ⟨key, n, List.mem_cons_of_mem _ hn, hun⟩
        · rintro (h | ⟨key, n, hn, hun⟩)
          · exact Or.inl (Or.inl h)
          · rcases List.mem_cons.mp hn with heq | hn
            · obtain ⟨rfl, rfl⟩ := Prod.mk.inj heq
              exact Or.inl (Or.inr hun)
            · exact Or.inr ⟨key, n, hn, hun⟩
      · have hhere : (checkMember new.members s m).changes = false := by
          by_contra h
          have := hiff.mpr (Or.inl (by simpa using h))
          simp [hfalse] at this
        rw [hnum hfalse, nrTwinsFound_checkMember hhere, Nat.mod_add_mod, List.length_cons]
        congr 1
        omega

/-- A change that the loop over the members sees: a member has no twin, or one that
`check_print_change` tells from it, where unnamed members are looked up by the counter. -/
def Seen (old new : DiffClass) : Prop :=
  ∃ key m, (key, m) ∈ old.counterKeys ∧ Unmatched new key m

/-- The number of members of the old struct, in 16 bits, is that of the new one. -/
def TwinsCount (old new : DiffClass) : Prop :=
  old.members.length % 65536 = new.nrMembers + new.nrStaticMembers

/-- The loops over the members report a change if and only if one is seen or the number of twins
differs. -/
theorem checkMembersChanges_iff (hnames : (memberNames new.members).Nodup)
    (hbases : ∀ m ∈ new.members, m.isInheritance = true → m.name = none) :
    checkMembersChanges old new = true ↔ Seen old new ∨ ¬TwinsCount old new := by
  obtain ⟨hiff, hnum⟩ := @foldl_checkMember new [] old.members hnames hbases ⟨false, 0, 0⟩ rfl
    (by norm_num)
  have hseen : (old.members.foldl (checkMember new.members) ⟨false, 0, 0⟩).changes = true ↔
      Seen old new := by
    rw [hiff]
    exact or_iff_right Bool.false_ne_true
  unfold checkMembersChanges
  cases hchanges : (old.members.foldl (checkMember new.members) ⟨false, 0, 0⟩).changes with
  | true =>
      simp only [hchanges, ite_self, true_iff]
      exact Or.inl (hseen.mp hchanges)
  | false =>
      have hnot : ¬Seen old new := fun h => by simp [hseen.mpr h] at hchanges
      have hcount := hnum hchanges
      rw [Nat.zero_add] at hcount
      simp only [hcount, hchanges, or_iff_right hnot, TwinsCount]
      by_cases heq : old.members.length % 65536 = new.nrMembers + new.nrStaticMembers <;>
        simp [heq]

/-- One counter is as good as one for each kind where there is only one kind. -/
theorem counterKeysFrom_eq {all : List DiffMember}
    (hone : ∀ m ∈ all, ∀ n ∈ all, m.name = none → n.name = none →
      m.isInheritance = n.isInheritance)
    (hbefore : before ⊆ all) (hmembers : members ⊆ all) :
    counterKeysFrom before members = keysFrom before members := by
  induction members generalizing before with
  | nil => rfl
  | cons m members ih =>
      obtain ⟨hm, hrest⟩ := List.cons_subset.mp hmembers
      have hkey : counterKey before m = memberKey before m := by
        unfold counterKey memberKey
        cases hname : m.name with
        | some name => rfl
        | none =>
            have hcount : before.countP (fun n => n.name.isNone) =
                before.countP (DiffMember.isUnnamed m.isInheritance) := by
              refine List.countP_congr fun n hn => ?_
              unfold DiffMember.isUnnamed
              rw [Bool.and_eq_true, beq_iff_eq]
              constructor
              · intro h
                exact ⟨hone n (hbefore hn) m hm (Option.isNone_iff_eq_none.mp h) hname, h⟩
              · exact And.right
            simp only [hcount]
      have hsub : before ++ [m] ⊆ all := by
        intro n hn
        rcases List.mem_append.mp hn with hn | hn
        · exact hbefore hn
        · rwa [List.mem_singleton.mp hn]
      rw [counterKeysFrom, keysFrom, hkey, ih hsub hrest]

theorem nrMembers_add_nrStaticMembers (h : new.members.length < 65536) :
    new.nrMembers + new.nrStaticMembers = new.members.length := by
  have hsum := List.length_eq_countP_add_countP (l := new.members)
    fun m => m.layout.isStatic
  have hnot : (new.members.countP fun m => decide ¬m.layout.isStatic = true) =
      new.members.countP fun m => !m.layout.isStatic :=
    List.countP_congr fun m _ => by simp
  unfold DiffClass.nrMembers DiffClass.nrStaticMembers
  rw [hnot] at hsum
  rw [Nat.mod_eq_of_lt (by omega), Nat.mod_eq_of_lt (by omega)]
  omega

/-- The keys of the struct. -/
def DiffClass.keyList (c : DiffClass) : List MemberKey := c.keys.map Prod.fst

theorem mem_keyList {c : DiffClass} {key : MemberKey} :
    key ∈ c.keyList ↔ ∃ m, (key, m) ∈ c.keys := by
  simp [DiffClass.keyList]

theorem length_keyList {c : DiffClass} : c.keyList.length = c.members.length := by
  rw [DiffClass.keyList, List.length_map, DiffClass.keys, length_keysFrom]

/-- When all the old members have twins, the number of members tells whether all the new
ones have. -/
theorem keyList_subset_iff (hold : (memberNames old.members).Nodup)
    (hnew : (memberNames new.members).Nodup) (hsub : old.keyList ⊆ new.keyList) :
    new.keyList ⊆ old.keyList ↔ old.members.length = new.members.length := by
  have holdNodup : old.keyList.Nodup := nodup_keysFrom hold
  have hnewNodup : new.keyList.Nodup := nodup_keysFrom hnew
  have hle := holdNodup.subperm hsub
  constructor
  · intro h
    have hge := (hnewNodup.subperm h).length_le
    have hlen := hle.length_le
    rw [length_keyList, length_keyList] at hge hlen
    omega
  · intro h
    have hperm := hle.perm_of_length_le (by rw [length_keyList, length_keyList, h])
    exact hperm.symm.subset

/-- In structs that can be compared, the loops over the members find what has changed. -/
theorem changed_iff (h : Comparable old new) :
    Changed old new ↔ old.size ≠ new.size ∨ Seen old new ∨ ¬TwinsCount old new := by
  have htypesOf : ∀ {c : DiffClass},
      (∀ m ∈ c.members, ∃ name, m.typeName = some name ∧ name.toList.length < 128) →
      ∀ {key m}, (key, m) ∈ c.keys →
        ∃ name, m.typeName = some name ∧ name.toList.length < 128 := by
    intro c htypes key m hm
    have hin : m ∈ c.keys.map Prod.snd := List.mem_map_of_mem hm
    rw [DiffClass.keys, map_snd_keysFrom] at hin
    exact htypes m hin
  have hkeys : old.counterKeys = old.keys :=
    counterKeysFrom_eq h.oneKind (List.nil_subset _) (List.Subset.refl _)
  refine or_congr_right ?_
  by_cases hseen : Seen old new
  · refine iff_of_true ?_ (Or.inl hseen)
    obtain ⟨key, m, hm, hun⟩ := hseen
    rw [hkeys] at hm
    rcases hun with hnone | ⟨n, hn, hcheck⟩
    · exact Or.inl ⟨key, m, hm, hnone⟩
    · exact Or.inr (Or.inr ⟨key, m, n, hm, hn, (checkPrintChange_iff
        (htypesOf h.oldTypes hm) (htypesOf h.newTypes hn)).mp hcheck⟩)
  · have hmatched : ∀ key m, (key, m) ∈ old.keys → ¬Unmatched new key m := by
      intro key m hm hun
      rw [← hkeys] at hm
      exact hseen ⟨key, m, hm, hun⟩
    have hpaired : ∀ key m, (key, m) ∈ old.keys → ∃ n, (key, n) ∈ new.keys := by
      intro key m hm
      by_contra hnone
      exact hmatched key m hm (Or.inl fun n hn => hnone ⟨n, hn⟩)
    have hsub : old.keyList ⊆ new.keyList := by
      intro key hkey
      obtain ⟨m, hm⟩ := mem_keyList.mp hkey
      exact mem_keyList.mpr (hpaired key m hm)
    have hlen := keyList_subset_iff h.oldNames h.newNames hsub
    have hcount : TwinsCount old new ↔ old.members.length = new.members.length := by
      rw [TwinsCount, Nat.mod_eq_of_lt h.oldFew, nrMembers_add_nrStaticMembers h.newFew]
    rw [or_iff_right hseen, hcount, ← hlen]
    constructor
    · rintro (⟨key, m, hm, hnone⟩ | ⟨key, n, hn, hnone⟩ | ⟨key, m, n, hm, hn, hdiffer⟩)
      · obtain ⟨n, hn⟩ := hpaired key m hm
        exact absurd hn (hnone n)
      · intro hback
        obtain ⟨m, hm⟩ := mem_keyList.mp (hback (mem_keyList.mpr ⟨n, hn⟩))
        exact hnone m hm
      · exact absurd (Or.inr ⟨n, hn, (checkPrintChange_iff (htypesOf h.oldTypes hm)
          (htypesOf h.newTypes hn)).mpr hdiffer⟩) (hmatched key m hm)
    · intro hback
      simp only [List.subset_def, not_forall] at hback
      obtain ⟨key, hkey, hnot⟩ := hback
      obtain ⟨n, hn⟩ := mem_keyList.mp hkey
      exact Or.inr (Or.inl ⟨key, n, hn, fun m hm => hnot (mem_keyList.mpr ⟨m, hm⟩)⟩)

end Members

/-! ## When a struct is reported -/

/-- The two structs have the same number of members that are not static, and the same
padding and holes. -/
def SameShape (old new : DiffClass) : Prop :=
  old.nrMembers = new.nrMembers ∧ old.findHoles.padding = new.findHoles.padding ∧
    old.findHoles.nrHoles = new.findHoles.nrHoles ∧
    old.findHoles.nrBitHoles = new.findHoles.nrBitHoles

/-- `diff_struct` marks a struct if and only if the sizes differ, the shapes differ, the members
are not `TwinsCount`, or a change is `Seen`. -/
theorem structDiff_iff {old new : DiffClass} (hnames : (memberNames new.members).Nodup)
    (hbases : ∀ m ∈ new.members, m.isInheritance = true → m.name = none) :
    structDiff old new = true ↔
      old.size ≠ new.size ∨ ¬SameShape old new ∨ ¬TwinsCount old new ∨ Seen old new := by
  have hmembers := @checkMembersChanges_iff old new hnames hbases
  simp only [structDiff, SameShape, Bool.or_eq_true, decide_eq_true_eq, hmembers]
  tauto

/-- A struct with distinct member names has not changed from itself. -/
theorem not_changed_self {c : DiffClass} (h : (memberNames c.members).Nodup) :
    ¬Changed c c := by
  rintro (hsize | ⟨key, m, hm, hnone⟩ | ⟨key, n, hn, hnone⟩ | ⟨key, m, n, hm, hn, hdiffer⟩)
  · exact hsize rfl
  · exact hnone m hm
  · exact hnone n hn
  · obtain rfl := eq_of_mem_keys h hm hn
    rcases hdiffer with hne | hne | hne | hne | hne <;> exact hne rfl

/-- If a definition is the only one of its name, `cu__find_struct_by_name` finds it. -/
theorem findStructByName_eq_some {structs : List DiffClass} {new : DiffClass} {name : String}
    (hunique : ∀ c ∈ structs, c.name = some name → c.declaration = false → c = new)
    (hnew : new ∈ structs) (hname : new.name = some name) (hdecl : new.declaration = false) :
    findStructByName structs name = some new := by
  have hpred : (new.name == some name && !new.declaration) = true := by simp [hname, hdecl]
  cases hfind : findStructByName structs name with
  | none => exact absurd hpred (List.find?_eq_none.mp hfind new hnew)
  | some c =>
      have hfound := List.find?_some hfind
      rw [Bool.and_eq_true, beq_iff_eq, Bool.not_eq_true'] at hfound
      rw [hunique c (List.mem_of_find?_eq_some hfind) hfound.1 hfound.2]

theorem diffStruct_isSome {structs : List DiffClass} {old new : DiffClass} {name : String}
    (hold : old.name = some name) (holdSize : old.size ≠ 0) (hnewSize : new.size ≠ 0)
    (hfind : findStructByName structs name = some new) :
    (diffStruct (some structs) old).isSome ↔ structDiff old new = true := by
  unfold diffStruct
  simp only [hold, holdSize, ↓reduceIte, Option.bind_some, hfind, hnewSize]
  cases structDiff old new <;> simp

/-- A data member of four bytes. -/
def intMember (name : Option String) (byteOffset : ℕ) : DiffMember where
  name := name
  bitfieldOffset := 0
  typeName := some "int"
  layout :=
    { type := 1, isInheritance := false, isVirtual := false, isStatic := false,
      bitOffset := 8 * byteOffset, byteOffset := byteOffset, byteSize := 4, bitSize := 32,
      bitfieldSize := 0 }

/-- `struct s { int a; }` and `struct s { int a; int b; }` -/
def oneInt : DiffClass where
  name := some "s"
  declaration := false
  size := 4
  members := [intMember (some "a") 0]

def twoInts : DiffClass where
  name := some "s"
  declaration := false
  size := 8
  members := [intMember (some "a") 0, intMember (some "b") 4]

/-- A class with a base class and an anonymous union. -/
def derivedClass : DiffClass where
  name := some "d"
  declaration := false
  size := 8
  members :=
    [{ intMember none 0 with layout := { (intMember none 0).layout with isInheritance := true } },
      intMember none 4]

end Pahole.Codiff

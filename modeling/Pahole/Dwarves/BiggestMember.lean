import Pahole.Dwarves.TypeWalks
import Pahole.Support.FirstBiggest

/-!
# The biggest member of a base type

`type__find_first_biggest_size_base_type_member` looks for the first of the biggest
scalar members of a class, in the classes inside it as well.  What it finds in a class
inside is taken to be there, and is weighed by the size of the member, of which it may
be an array.  A `restrict` is not looked through, and a pointer to a member has no size.

Sizes only count up to the size of an address, and rounded down to a power of two.
-/

namespace Pahole

open FirstBiggest

/-! ## The code -/

/-- `DW_TAG_rvalue_reference_type` -/
def dwTagRvalueReferenceType : ℕ := 0x42

/-- The type of a member, past those that are looked through. -/
inductive MemberKind where
  | sized (memberSize : ℕ)
  | aggregate (ty : Aggregate)
  /-- an id without a type -/
  | unresolved

/-- The ways in which the search ends without a result. -/
inductive BiggestError where
  /-- the bound on the depth of the calls -/
  | depth
  /-- `inner->byte_size`, with `inner` being `NULL` -/
  | nullDereference
  deriving DecidableEq

/-- The `switch` that is gone back to with `goto reevaluate`. -/
def reevaluate (addrSize : ℕ) (tbl : TypesTable) : (depth : ℕ) → Tag → Option MemberKind
  | 0, _ => none
  | depth + 1, tag =>
      let follow := fun type : TypeId =>
        match tbl.type? type with
        | none => some .unresolved
        | some tag => reevaluate addrSize tbl depth tag
      match tag with
      | .baseType bt => some (.sized (bt.bitSize / 8))
      | .pointer _ | .reference _ => some (.sized addrSize)
      | .aggregate ty => some (.aggregate ty)
      | .array type _ | .modifier .const type | .typedef _ type _ | .modifier .volatile type
      | .modifier .atomic type => follow type
      | .unsupported kind type =>
          if kind = dwTagRvalueReferenceType then follow type else some (.sized 0)
      | .enumeration ty => some (.sized (ty.size / 8))
      | _ => some (.sized 0)

/-- The loop over the powers of two, from the size of an address down. -/
def firstPower (memberSize resultSize : ℕ) : (fuel power2 : ℕ) → Option ℕ
  | 0, _ => none
  | fuel + 1, power2 =>
      if power2 > resultSize then
        if memberSize ≥ power2 then some power2
        else firstPower memberSize resultSize fuel (power2 / 2)
      else none

/-- The end of the loop's body: `pos` is compared by `memberSize`, and `next` goes on with the
loop.  A member longer than an address, a `long long`, is returned at once. -/
def weighMember (addrSize : ℕ) (pos : ClassMember)
    (next : Option ClassMember → ℕ → Except BiggestError (Option ClassMember))
    (result : Option ClassMember) (resultSize : ℕ) (inner : Option ClassMember)
    (memberSize : ℕ) : Except BiggestError (Option ClassMember) :=
  if memberSize > addrSize then .ok (some pos)
  else
    match firstPower memberSize resultSize (addrSize + 1) addrSize with
    | none => next result resultSize
    | some power2 =>
        if power2 = addrSize then .ok (some (inner.getD pos))
        else next (some (inner.getD pos)) power2

/-- The loop over the data members, with `result` and `result_size`; `recurse` is the
call for a class inside. -/
def biggestLoop (addrSize : ℕ) (tbl : TypesTable) (depth : ℕ)
    (recurse : Aggregate → Except BiggestError (Option ClassMember)) :
    List ClassMember → (result : Option ClassMember) → (resultSize : ℕ) →
      Except BiggestError (Option ClassMember)
  | [], result, _ => .ok result
  | pos :: rest, result, resultSize =>
      let next := biggestLoop addrSize tbl depth recurse rest
      if pos.isStatic then next result resultSize
      else
        match tbl.type? pos.type with
        | none => next result resultSize
        | some type =>
            match reevaluate addrSize tbl depth type with
            | none => .error .depth
            | some .unresolved => next result resultSize
            | some (.sized memberSize) =>
                weighMember addrSize pos next result resultSize none memberSize
            | some (.aggregate ty) =>
                if ty.nrMembers = 0 then next result resultSize
                else
                  match recurse ty with
                  | .error err => .error err
                  | .ok none => .error .nullDereference
                  | .ok (some inner) =>
                      weighMember addrSize pos next result resultSize (some inner) inner.byteSize

/-- `type__find_first_biggest_size_base_type_member` -/
def typeFindFirstBiggest (addrSize : ℕ) (tbl : TypesTable) :
    (depth : ℕ) → Aggregate → Except BiggestError (Option ClassMember)
  | 0, _ => .error .depth
  | depth + 1, ty =>
      biggestLoop addrSize tbl depth (typeFindFirstBiggest addrSize tbl depth) ty.dataMembers
        none 0

/-! ## The leaves -/

/-- A size rounded down to a power of two, and capped at the size of an address. -/
def roundedSize (addrSize size : ℕ) : ℕ :=
  if size = 0 then 0 else min addrSize (2 ^ Nat.log 2 size)

/-- The kind of a type past arrays, typedefs and qualifiers.  References and pointers to members
are pointers.  There is no result for an id without a type. -/
def memberKind (addrSize : ℕ) (tbl : TypesTable) : (depth : ℕ) → Tag → Option MemberKind
  | 0, _ => none
  | depth + 1, tag =>
      match tag with
      | .baseType bt => some (.sized (bt.bitSize / 8))
      | .pointer _ | .reference _ => some (.sized addrSize)
      | .aggregate ty => some (.aggregate ty)
      | .enumeration ty => some (.sized (ty.size / 8))
      | .array type _ | .modifier _ type | .typedef _ type _ =>
          (tbl.type? type).bind (memberKind addrSize tbl depth)
      | .unsupported kind _ =>
          some (.sized
            (if kind = dwTagRvalueReferenceType ∨ kind = dwTagPtrToMemberType then addrSize else 0))
      | _ => some (.sized 0)

/-- The leaves of the members of a list, appended in their order. -/
def collect (leaves : ClassMember → Option (List (ClassMember × ℕ))) :
    List ClassMember → Option (List (ClassMember × ℕ))
  | [] => some []
  | m :: rest =>
      match leaves m, collect leaves rest with
      | some here, some later => some (here ++ later)
      | _, _ => none

/-- The data members that are not static. -/
def Aggregate.ownMembers (ty : Aggregate) : List ClassMember :=
  ty.dataMembers.filter fun m => !m.isStatic

/-- The scalar members that a member stands for; `inner` has those of a class inside. -/
def memberLeaves (addrSize : ℕ) (tbl : TypesTable) (depth : ℕ)
    (inner : Aggregate → Option (List (ClassMember × ℕ))) (m : ClassMember) :
    Option (List (ClassMember × ℕ)) :=
  match (tbl.type? m.type).bind (memberKind addrSize tbl depth) with
  | some (.sized size) => some [(m, size)]
  | some (.aggregate ty) => inner ty
  | _ => none

/-- The scalar members of a class and of the classes inside it, with the size of what
they are, or are arrays of. -/
def leavesOf (addrSize : ℕ) (tbl : TypesTable) :
    (depth : ℕ) → Aggregate → Option (List (ClassMember × ℕ))
  | 0, _ => none
  | depth + 1, ty =>
      collect (memberLeaves addrSize tbl depth (leavesOf addrSize tbl depth)) ty.ownMembers

/-- The weight of a leaf: its rounded size. -/
def leafWeight (addrSize : ℕ) (leaf : ClassMember × ℕ) : ℕ := roundedSize addrSize leaf.2

/-- The search returns without following `NULL`: nothing if all leaves have size 0, and
otherwise a leaf whose rounded size is not below that of any leaf. -/
structure BiggestExact (addrSize : ℕ) (leaves : List (ClassMember × ℕ))
    (result : Except BiggestError (Option ClassMember)) : Prop where
  safe : result ≠ .error .nullDereference
  none_iff : result = .ok none ↔ ∀ leaf ∈ leaves, leaf.2 = 0
  biggest : ∀ m, result = .ok (some m) → ∃ size, (m, size) ∈ leaves ∧
    ∀ leaf ∈ leaves, leafWeight addrSize leaf ≤ roundedSize addrSize size
  returns : result ≠ .error .depth

/-! ## Members that stand for others -/

/-- For each member of a list, up to the first that is as big as an address, the member that
stands for it and the size it is compared by. -/
def measuresOf (addrSize : ℕ) (standsFor : ClassMember → Option (ClassMember × ℕ)) :
    List ClassMember → Option (List (ClassMember × ℕ))
  | [] => some []
  | m :: rest =>
      (standsFor m).bind fun measured =>
        if addrSize ≤ measured.2 then some [measured]
        else (measuresOf addrSize standsFor rest).map (measured :: ·)

/-- A member stands for itself, with the size that `reevaluate` returns.  The member that
`first` has for a class inside stands for one of that class, with its `byte_size`, unless it is
longer than an address.  There is no result if the class has members, but `first` has none for
it. -/
def standsFor (addrSize : ℕ) (tbl : TypesTable) (depth : ℕ)
    (first : Aggregate → Option ClassMember) (m : ClassMember) : Option (ClassMember × ℕ) :=
  match tbl.type? m.type with
  | none => some (m, 0)
  | some type =>
      match reevaluate addrSize tbl depth type with
      | none => none
      | some .unresolved => some (m, 0)
      | some (.sized size) => some (m, size)
      | some (.aggregate ty) =>
          if ty.nrMembers = 0 then some (m, 0)
          else (first ty).map fun inner =>
            (if addrSize < inner.byteSize then m else inner, inner.byteSize)

/-- The first of the members that weigh most. -/
def firstOf (addrSize : ℕ) (measured : Option (List (ClassMember × ℕ))) : Option ClassMember :=
  measured.bind fun measured => (pick (leafWeight addrSize) measured).map Prod.fst

/-- The members that stand for those of a class. -/
def measures (addrSize : ℕ) (tbl : TypesTable) :
    (depth : ℕ) → Aggregate → Option (List (ClassMember × ℕ))
  | 0, _ => none
  | depth + 1, ty =>
      measuresOf addrSize
        (standsFor addrSize tbl depth fun ty => firstOf addrSize (measures addrSize tbl depth ty))
        ty.ownMembers

/-- `measured` has a size other than 0 if and only if a leaf has, and the first of its members
with the largest weight is a leaf whose rounded size is not below that of any leaf. -/
structure LeadsToBiggest (addrSize : ℕ) (leaves measured : List (ClassMember × ℕ)) : Prop where
  none_iff : (∀ m ∈ measured, m.2 = 0) ↔ ∀ leaf ∈ leaves, leaf.2 = 0
  biggest : ∀ found, pick (leafWeight addrSize) measured = some found →
    ∃ size, (found.1, size) ∈ leaves ∧
      ∀ leaf ∈ leaves, leafWeight addrSize leaf ≤ roundedSize addrSize size

section Biggest

variable {addrSize k : ℕ} {tbl : TypesTable} {depth : ℕ}

/-! ### Sizes -/

theorem roundedSize_le (size : ℕ) : roundedSize addrSize size ≤ addrSize := by
  unfold roundedSize
  split
  · exact Nat.zero_le _
  · exact min_le_left _ _

theorem roundedSize_eq_iff (size : ℕ) :
    roundedSize (2 ^ k) size = 2 ^ k ↔ 2 ^ k ≤ size := by
  have hpos : 0 < 2 ^ k := Nat.two_pow_pos k
  unfold roundedSize
  split
  · omega
  · rename_i hne
    rw [min_eq_left_iff, Nat.pow_le_pow_iff_right (by norm_num)]
    exact (Nat.le_log_iff_pow_le (by norm_num) hne)

theorem roundedSize_two_pow_succ (size : ℕ) (h : ¬2 ^ (k + 1) ≤ size) :
    roundedSize (2 ^ (k + 1)) size = roundedSize (2 ^ k) size := by
  unfold roundedSize
  split
  · rfl
  · rename_i hne
    have hlog : Nat.log 2 size < k + 1 := (Nat.log_lt_iff_lt_pow (by norm_num) hne).mpr (not_le.mp h)
    have hle : 2 ^ Nat.log 2 size ≤ 2 ^ k := Nat.pow_le_pow_right (by norm_num) (Nat.le_of_lt_succ hlog)
    rw [min_eq_right hle, min_eq_right (hle.trans (Nat.pow_le_pow_right (by norm_num) k.le_succ))]

/-- The inner loop returns the rounded size if that is greater than the size of the result. -/
theorem firstPower_eq (memberSize resultSize fuel : ℕ) (hfuel : k + 1 < fuel) :
    firstPower memberSize resultSize fuel (2 ^ k) =
      if resultSize < roundedSize (2 ^ k) memberSize then some (roundedSize (2 ^ k) memberSize)
      else none := by
  induction k generalizing fuel with
  | zero =>
      obtain ⟨fuel, rfl⟩ : ∃ n, fuel = n + 2 := ⟨fuel - 2, by omega⟩
      rcases Nat.eq_zero_or_pos memberSize with rfl | hpos
      · simp [firstPower, roundedSize]
      · have hone : roundedSize (2 ^ 0) memberSize = 2 ^ 0 := (roundedSize_eq_iff memberSize).mpr hpos
        rw [firstPower, hone]
        by_cases hresult : resultSize < 2 ^ 0
        · rw [if_pos hresult, if_pos hresult]
          exact if_pos hpos
        · rw [if_neg hresult, if_neg hresult]
  | succ k ih =>
      obtain ⟨fuel, rfl⟩ : ∃ n, fuel = n + 1 := ⟨fuel - 1, by omega⟩
      rw [firstPower]
      by_cases hresult : 2 ^ (k + 1) > resultSize
      · rw [if_pos hresult]
        by_cases hsize : memberSize ≥ 2 ^ (k + 1)
        · rw [if_pos hsize, (roundedSize_eq_iff memberSize).mpr hsize, if_pos hresult]
        · have hhalf : 2 ^ (k + 1) / 2 = 2 ^ k := by omega
          rw [if_neg hsize, hhalf, roundedSize_two_pow_succ memberSize hsize]
          exact ih fuel (by omega)
      · have hle : ¬resultSize < roundedSize (2 ^ (k + 1)) memberSize :=
          not_lt.mpr ((roundedSize_le memberSize).trans (not_lt.mp hresult))
        rw [if_neg hresult, if_neg hle]

/-- With nothing as big as an address before, a member is weighed by its size. -/
theorem weighMember_eq {pos : ClassMember} {inner : Option ClassMember} {memberSize : ℕ}
    {next : Option ClassMember → ℕ → Except BiggestError (Option ClassMember)}
    {best : Option (ClassMember × ℕ)} {measured : ClassMember × ℕ}
    (hmeasured : measured = (if 2 ^ k < memberSize then pos else inner.getD pos, memberSize))
    (hbest : chosenWeight (leafWeight (2 ^ k)) best < 2 ^ k) :
    weighMember (2 ^ k) pos next (best.map Prod.fst) (chosenWeight (leafWeight (2 ^ k)) best)
        inner memberSize =
      if 2 ^ k ≤ measured.2 then .ok (some measured.1)
      else next ((heavier (leafWeight (2 ^ k)) best measured).map Prod.fst)
        (chosenWeight (leafWeight (2 ^ k)) (heavier (leafWeight (2 ^ k)) best measured)) := by
  subst hmeasured
  unfold weighMember
  by_cases hlong : 2 ^ k < memberSize
  · rw [if_pos hlong, if_pos hlong.le, if_pos hlong]
  · have hlt := Nat.lt_two_pow_self (n := k)
    rw [if_neg hlong, firstPower_eq _ _ _ (by omega), if_neg hlong]
    have hweight : leafWeight (2 ^ k) (inner.getD pos, memberSize) =
        roundedSize (2 ^ k) memberSize := rfl
    rcases lt_or_ge (chosenWeight (leafWeight (2 ^ k)) best) (roundedSize (2 ^ k) memberSize) with
      hheavier | hlighter
    · rw [if_pos hheavier, heavier_of_lt (hheavier.trans_eq hweight.symm)]
      simp only [roundedSize_eq_iff]
      rfl
    · have hnot : ¬2 ^ k ≤ memberSize := fun hle =>
        (hlighter.trans_lt hbest).ne ((roundedSize_eq_iff memberSize).mpr hle)
      rw [if_neg (not_lt.mpr hlighter), if_neg hnot, heavier_of_le (hweight.trans_le hlighter)]

/-! ### The members one after the other -/

variable {recurse : Aggregate → Except BiggestError (Option ClassMember)}
  {first : Aggregate → Option ClassMember} {pos : ClassMember} {rest members : List ClassMember}
  {best : Option (ClassMember × ℕ)}

/-- A call for a class inside returns `first` of it, or fails where that is nothing. -/
def Finds (recurse : Aggregate → Except BiggestError (Option ClassMember))
    (first : Aggregate → Option ClassMember) : Prop :=
  ∀ ty, match first ty with
    | none => recurse ty = .ok none ∨ ∃ err, recurse ty = .error err
    | some m => recurse ty = .ok (some m)

/-- The loop ends with an error, ends with a member as big as an address, or goes on. -/
theorem biggestLoop_cons (hfinds : Finds recurse first) (hstatic : pos.isStatic = false)
    (hbest : chosenWeight (leafWeight (2 ^ k)) best < 2 ^ k) :
    match standsFor (2 ^ k) tbl depth first pos with
    | none => ∃ err, biggestLoop (2 ^ k) tbl depth recurse (pos :: rest) (best.map Prod.fst)
        (chosenWeight (leafWeight (2 ^ k)) best) = .error err
    | some measured =>
        biggestLoop (2 ^ k) tbl depth recurse (pos :: rest) (best.map Prod.fst)
            (chosenWeight (leafWeight (2 ^ k)) best) =
          if 2 ^ k ≤ measured.2 then .ok (some measured.1)
          else biggestLoop (2 ^ k) tbl depth recurse rest
            ((heavier (leafWeight (2 ^ k)) best measured).map Prod.fst)
            (chosenWeight (leafWeight (2 ^ k)) (heavier (leafWeight (2 ^ k)) best measured)) := by
  have hpos : 0 < 2 ^ k := Nat.two_pow_pos k
  have hskip : heavier (leafWeight (2 ^ k)) best (pos, 0) = best :=
    heavier_of_le (by simp [leafWeight, roundedSize])
  have hnone : ¬2 ^ k ≤ (pos, 0).2 := not_le.mpr hpos
  unfold standsFor
  rw [biggestLoop, if_neg (by simp [hstatic])]
  cases tbl.type? pos.type with
  | none =>
      dsimp only
      rw [if_neg hnone, hskip]
  | some type =>
      dsimp only
      cases reevaluate (2 ^ k) tbl depth type with
      | none => exact ⟨.depth, rfl⟩
      | some kind =>
          cases kind with
          | unresolved =>
              dsimp only
              rw [if_neg hnone, hskip]
          | sized size => exact weighMember_eq (by simp) hbest
          | aggregate ty =>
              dsimp only
              by_cases hmembers : ty.nrMembers = 0
              · rw [if_pos hmembers, if_pos hmembers]
                dsimp only
                rw [if_neg hnone, hskip]
              · rw [if_neg hmembers, if_neg hmembers]
                have hfirst := hfinds ty
                cases hcase : first ty with
                | none =>
                    rw [hcase] at hfirst
                    rcases hfirst with hrun | ⟨err, hrun⟩
                    · exact ⟨.nullDereference, by rw [hrun]⟩
                    · exact ⟨err, by rw [hrun]⟩
                | some inner =>
                    rw [hcase] at hfirst
                    dsimp only at hfirst
                    rw [hfirst]
                    exact weighMember_eq rfl hbest

theorem biggestLoop_of_isStatic {result : Option ClassMember} {resultSize : ℕ}
    (h : pos.isStatic = true) :
    biggestLoop addrSize tbl depth recurse (pos :: rest) result resultSize =
      biggestLoop addrSize tbl depth recurse rest result resultSize := by
  rw [biggestLoop, if_pos h]

/-- The loop returns the first of the largest weight among what stands for the members. -/
theorem biggestLoop_eq (hfinds : Finds recurse first)
    (hbest : chosenWeight (leafWeight (2 ^ k)) best < 2 ^ k) :
    match measuresOf (2 ^ k) (standsFor (2 ^ k) tbl depth first)
      (members.filter fun m => !m.isStatic) with
    | none => ∃ err, biggestLoop (2 ^ k) tbl depth recurse members (best.map Prod.fst)
        (chosenWeight (leafWeight (2 ^ k)) best) = .error err
    | some measured =>
        biggestLoop (2 ^ k) tbl depth recurse members (best.map Prod.fst)
            (chosenWeight (leafWeight (2 ^ k)) best) =
          .ok ((measured.foldl (heavier (leafWeight (2 ^ k))) best).map Prod.fst) := by
  induction members generalizing best with
  | nil => exact rfl
  | cons pos rest ih =>
      cases hstatic : pos.isStatic with
      | true =>
          rw [List.filter_cons_of_neg (by simp [hstatic])]
          simp only [biggestLoop_of_isStatic hstatic]
          exact ih hbest
      | false =>
          rw [List.filter_cons_of_pos (by simp [hstatic]), measuresOf]
          have hcons := @biggestLoop_cons k tbl depth recurse first pos rest best hfinds hstatic hbest
          cases hstands : standsFor (2 ^ k) tbl depth first pos with
          | none =>
              rw [hstands] at hcons
              exact hcons
          | some measured =>
              rw [hstands] at hcons
              dsimp only at hcons
              rw [Option.bind_some, hcons]
              by_cases hword : 2 ^ k ≤ measured.2
              · rw [if_pos hword, if_pos hword]
                have hweight : leafWeight (2 ^ k) measured = 2 ^ k :=
                  (roundedSize_eq_iff measured.2).mpr hword
                dsimp only
                rw [List.foldl_cons, List.foldl_nil, heavier_of_lt (hbest.trans_eq hweight.symm)]
                rfl
              · rw [if_neg hword, if_neg hword]
                have hlt : leafWeight (2 ^ k) measured < 2 ^ k := lt_of_le_of_ne (roundedSize_le _)
                  fun heq => hword ((roundedSize_eq_iff measured.2).mp heq)
                have hbest' : chosenWeight (leafWeight (2 ^ k))
                    (heavier (leafWeight (2 ^ k)) best measured) < 2 ^ k := by
                  rw [chosenWeight_heavier]
                  exact max_lt hbest hlt
                have hrest := ih hbest'
                cases hmeasures : measuresOf (2 ^ k) (standsFor (2 ^ k) tbl depth first)
                    (rest.filter fun m => !m.isStatic) with
                | none =>
                    rw [hmeasures] at hrest
                    exact hrest
                | some later =>
                    rw [hmeasures] at hrest
                    exact hrest

/-- The search returns the first of the largest weight among what stands for the members. -/
theorem typeFindFirstBiggest_eq {ty : Aggregate} :
    match measures (2 ^ k) tbl depth ty with
    | none => ∃ err, typeFindFirstBiggest (2 ^ k) tbl depth ty = .error err
    | some measured => typeFindFirstBiggest (2 ^ k) tbl depth ty =
        .ok ((pick (leafWeight (2 ^ k)) measured).map Prod.fst) := by
  induction depth generalizing ty with
  | zero => exact ⟨.depth, rfl⟩
  | succ depth ih =>
      rw [typeFindFirstBiggest, measures]
      have hstart : chosenWeight (leafWeight (2 ^ k)) (none : Option (ClassMember × ℕ)) < 2 ^ k :=
        Nat.two_pow_pos k
      refine biggestLoop_eq (fun ty => ?_) hstart
      have hinner := @ih ty
      unfold firstOf
      cases hmeasures : measures (2 ^ k) tbl depth ty with
      | none =>
          rw [hmeasures] at hinner
          exact Or.inr hinner
      | some measured =>
          rw [hmeasures] at hinner
          rw [Option.bind_some]
          cases hpick : pick (leafWeight (2 ^ k)) measured with
          | none => exact Or.inl (by rw [hinner, hpick]; rfl)
          | some found => exact (by rw [hinner, hpick]; rfl)

theorem leafWeight_eq_zero_iff {leaf : ClassMember × ℕ} :
    leafWeight (2 ^ k) leaf = 0 ↔ leaf.2 = 0 := by
  have hsize : 0 < 2 ^ k := Nat.two_pow_pos k
  have hlog : 0 < 2 ^ Nat.log 2 leaf.2 := Nat.two_pow_pos _
  unfold leafWeight roundedSize
  split
  · simp_all
  · omega

end Biggest

/-- A member of a class, with its type and its size in bytes. -/
def plainMember (name : String) (type : TypeId) (byteSize : ℕ) : ClassMember where
  tag := .member
  name := some name
  type := type
  bitOffset := 0
  bitSize := 8 * byteSize
  byteOffset := 0
  byteSize := byteSize
  bitfieldOffset := 0
  bitfieldSize := 0
  isStatic := false
  hasBitOffset := false

/-- A struct with some members. -/
def plainStruct (name : String) (size : ℕ) (members : List ClassMember) : Aggregate where
  kind := .structType
  name := some name
  type := 0
  size := size
  declaration := false
  members := members
  annots := []

/-- `int` -/
def plainInt : BaseType where
  name := some "int"
  bitSize := 32
  nameHasEncoding := false
  isSigned := true
  isBool := false
  isVarargs := false
  floatType := .none

/-- `struct empty {}`, `struct holder { struct empty e; }`, `int` and
`struct inner { int x; }`. -/
def nestedTypes : TypesTable :=
  [none, some (.aggregate (plainStruct "empty" 0 [])),
    some (.aggregate (plainStruct "holder" 0 [plainMember "e" 1 0])),
    some (.baseType plainInt),
    some (.aggregate (plainStruct "inner" 4 [plainMember "x" 3 4]))]

/-- `struct outer { struct holder h; int i; }` -/
def holderOuter : Aggregate := plainStruct "outer" 4 [plainMember "h" 2 0, plainMember "i" 3 4]

/-- The types of `nestedTypes`, `void *`, `void *restrict`, `long` and a pointer to a member. -/
def maskedTypes : TypesTable :=
  nestedTypes ++ [some (.pointer 0), some (.modifier .restrict 5),
    some (.baseType { plainInt with name := some "long", bitSize := 64 }),
    some (.unsupported dwTagPtrToMemberType 3)]

/-- `struct outer { void *restrict p; struct inner s; long l; }` -/
def maskedOuter : Aggregate :=
  plainStruct "outer" 24 [plainMember "p" 6 8, plainMember "s" 4 4, plainMember "l" 7 8]

/-- `struct m { int A::*p; int i; }` -/
def ptrToMemberOuter : Aggregate :=
  plainStruct "m" 16 [plainMember "p" 8 8, plainMember "i" 3 4]

end Pahole

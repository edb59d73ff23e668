import Pahole.DwarvesFprintf.RecursivityLevel

/-!
# Type loops

`tag__has_type_loop` finds a type whose type is the type's own type.  Here are the ways that
printing a type comes to one after it has raised a level, in terms of the tags of the CU only, and
the sets of tags that printing does not leave.
-/

namespace Pahole.Fprintf

open Bracketed

/-! ## Types that are their own type -/

/-- The tags that printing a tag can go on to: its type, the types of its members, and the tags
on its list. -/
def Tag.refs (cu : Cu) (tag : Tag) : List TagPtr :=
  (cu.type tag.type).toList ++
    match tag with
    | .class _ _ _ entries _ => entries.flatMap fun
        | .member m => (cu.type m.type).toList
        | .other tag => [tag]
    | .union _ _ members => members.filterMap fun m => cu.type m.type
    | .namespace _ tags => tags
    | _ => []

/-- The set contains all tags that the tags in it refer to. -/
def Cu.Closed (cu : Cu) (S : Set TagPtr) : Prop := ∀ tag ∈ S, ∀ ref ∈ (cu.tag tag).refs cu, ref ∈ S

/-- Following the annotations from the first type id leads to the second. -/
inductive Unannotated (cu : Cu) : TypeId → TypeId → Prop where
  | void : Unannotated cu 0 0
  | dangling {id} (hid : id ≠ 0) (htype : cu.type id = none) : Unannotated cu id id
  | plain {id type} (hid : id ≠ 0) (htype : cu.type id = some type)
      (htag : ∀ next, cu.tag type ≠ .annotated next) : Unannotated cu id id
  | self {id type} (hid : id ≠ 0) (htype : cu.type id = some type)
      (htag : cu.tag type = .annotated id) : Unannotated cu id id
  | skip {id type next last} (hid : id ≠ 0) (htype : cu.type id = some type)
      (htag : cu.tag type = .annotated next) (hne : next ≠ id) (hnext : Unannotated cu next last) :
      Unannotated cu id last

/-- The type that a qualifier, or an annotation, is of. -/
def Tag.qualified? : Tag → Option TypeId
  | .const id | .atomic id | .annotated id => some id
  | _ => none

/-- Qualifiers lead to a pointer whose target has the same type as the pointer. -/
inductive PointerLoop (cu : Cu) : TagPtr → Prop where
  | here {type id ptypeId ptype} (htag : cu.tag type = .pointer id)
      (hskip : Unannotated cu id ptypeId) (hptype : cu.type ptypeId = some ptype)
      (hloop : cu.hasTypeLoop type ptype = true) : PointerLoop cu type
  | qualified {type id inner} (htag : (cu.tag type).qualified? = some id)
      (hinner : cu.type id = some inner) (h : PointerLoop cu inner) : PointerLoop cu type

/-- Typedefs lead to one whose type has the same type as the typedef, or to such a pointer. -/
inductive TypedefLoop (cu : Cu) : TagPtr → Prop where
  | here {type id nameLen typeType} (htag : cu.tag type = .typedef id nameLen)
      (htype : cu.type id = some typeType) (hloop : cu.hasTypeLoop type typeType = true) :
      TypedefLoop cu type
  | typedef {type id nameLen typeType} (htag : cu.tag type = .typedef id nameLen)
      (htype : cu.type id = some typeType) (hloop : cu.hasTypeLoop type typeType = false)
      (h : TypedefLoop cu typeType) : TypedefLoop cu type
  | pointer {type} (htag : ∀ id nameLen, cu.tag type ≠ .typedef id nameLen)
      (h : PointerLoop cu type) : TypedefLoop cu type

/-- The tag is not a pointer to a type: the loop over pointers stops there. -/
def Cu.StopsPointers (cu : Cu) (type : TagPtr) : Prop := ∀ id, cu.tag type = .pointer id → id = 0

/-- Printing the type raises a level and then meets a type loop, in the type itself or in the
target of the pointer that it is. -/
inductive LoopsAt (cu : Cu) : TagPtr → Prop where
  | plain {type} (hstops : cu.StopsPointers type) (h : PointerLoop cu type) : LoopsAt cu type
  | target {type id ttype} (htag : cu.tag type = .pointer id) (htype : cu.type id = some ttype)
      (hloop : cu.hasTypeLoop type ttype = false) (hstops : cu.StopsPointers ttype)
      (h : TypedefLoop cu ttype) : LoopsAt cu type

/-! ## Calls stay in a closed set -/

/-- The tags that the call is made for are in the set. -/
def Call.Within (S : Set TagPtr) : Call → Prop
  | .type target _ => ∀ t ∈ target, t ∈ S
  | .tag target => target ∈ S

section Closed

variable {cu : Cu} {conf : ConfFprintf} {S : Set TagPtr} {fuel nameLen count n : ℕ}
  {expandTypes : Bool} {type last : TagPtr} {id : TypeId}

theorem type_mem (hclosed : cu.Closed S) (htype : type ∈ S) {ttype : TagPtr}
    (h : cu.type (cu.tag type).type = some ttype) : ttype ∈ S :=
  hclosed type htype ttype (List.mem_append_left _ (Option.mem_toList.mpr h))

theorem member_mem (hclosed : cu.Closed S) (htype : type ∈ S) {interface named : Bool}
    {entries : List ClassEntry} {paddings : ℕ} {m : Member} {mtype : TagPtr}
    (htag : cu.tag type = .class interface named id entries paddings)
    (hm : .member m ∈ entries) (h : cu.type m.type = some mtype) : mtype ∈ S := by
  refine hclosed type htype mtype ?_
  rw [htag]
  exact List.mem_append_right _ (List.mem_flatMap.mpr ⟨_, hm, Option.mem_toList.mpr h⟩)

theorem le_followPointers (h : followPointers cu fuel type count = some (.at last n)) :
    count ≤ n := by
  induction fuel generalizing type count with
  | zero => cases h
  | succ fuel ih =>
      rw [followPointers] at h
      split at h
      · next id htag =>
          split at h
          · exact (Followed.at.inj (Option.some.inj h)).2.le
          · cases hid : cu.type id with
            | none =>
                rw [hid] at h
                cases h
            | some ttype =>
                rw [hid] at h
                dsimp only at h
                split at h
                · cases h
                · exact (Nat.le_succ count).trans (ih h)
      · exact (Followed.at.inj (Option.some.inj h)).2.le

theorem followPointers_same (h : followPointers cu fuel type count = some (.at last count)) :
    last = type := by
  cases fuel with
  | zero => cases h
  | succ fuel =>
      rw [followPointers] at h
      split at h
      · next id htag =>
          split at h
          · exact (Followed.at.inj (Option.some.inj h)).1.symm
          · cases hid : cu.type id with
            | none =>
                rw [hid] at h
                cases h
            | some ttype =>
                rw [hid] at h
                dsimp only at h
                split at h
                · cases h
                · exact absurd (le_followPointers h) (Nat.not_succ_le_self count)
      · exact (Followed.at.inj (Option.some.inj h)).1.symm

theorem classMember_within {m : Member} {mtype : TagPtr} (h : mtype ∈ S) :
    (classMemberFprintf cu m mtype).Within S := fun t ht => by
  rw [← Option.some.inj ht]
  exact h

theorem within_classFprintf (hclosed : cu.Closed S) (htype : type ∈ S) {interface named : Bool}
    {entries : List ClassEntry} {paddings : ℕ}
    (htag : cu.tag type = .class interface named id entries paddings) :
    ∀ c ∈ classFprintf cu conf entries paddings, c.Within S := by
  intro c hc
  rcases List.mem_append.mp hc with hc | hc
  · obtain ⟨entry, hentry, hc⟩ := List.mem_flatMap.mp hc
    cases entry with
    | other tag =>
        rw [classEntryFprintf] at hc
        split at hc
        · cases hc
        · obtain rfl := List.mem_singleton.mp hc
          refine hclosed type htype tag ?_
          rw [htag]
          exact List.mem_append_right _ (List.mem_flatMap.mpr ⟨_, hentry, List.mem_singleton_self _⟩)
    | member m =>
        rw [classEntryFprintf] at hc
        cases hmtype : cu.type m.type with
        | none =>
            rw [hmtype] at hc
            cases hc
        | some mtype =>
            have hmem := member_mem hclosed htype htag hentry hmtype
            rw [hmtype] at hc
            rcases List.mem_append.mp hc with hc | hc
            · split at hc
              · obtain rfl := List.mem_singleton.mp hc
                rintro t ⟨⟩
                exact hmem
              · cases hc
            · obtain rfl := List.mem_singleton.mp hc
              exact classMember_within hmem
  · cases hlast : lastMember? entries with
    | none =>
        rw [hlast] at hc
        cases hc
    | some m =>
        rw [hlast] at hc
        obtain rfl := List.eq_of_mem_replicate hc
        obtain ⟨entry, hentry, heq⟩ := List.mem_filterMap.mp (List.mem_of_getLast? hlast)
        cases entry with
        | other tag => cases heq
        | member m' =>
            obtain rfl := Option.some.inj heq
            exact fun t ht => member_mem hclosed htype htag hentry ht

theorem within_unionFprintf (hclosed : cu.Closed S) (htype : type ∈ S) {named : Bool}
    {members : List Member} (htag : cu.tag type = .union named id members) :
    ∀ c ∈ unionFprintf cu members, c.Within S := by
  intro c hc
  obtain ⟨m, hm, hc⟩ := List.mem_filterMap.mp hc
  obtain ⟨mtype, hmtype, rfl⟩ := Option.map_eq_some_iff.mp hc
  refine classMember_within (hclosed type htype mtype ?_)
  rw [htag]
  exact List.mem_append_right _ (List.mem_filterMap.mpr ⟨m, hm, hmtype⟩)

theorem within_structLikeFprintf (conf : ConfFprintf) (expandTypes : Bool)
    (hclosed : cu.Closed S) (htype : type ∈ S) :
    ∀ c ∈ structLikeFprintf cu conf expandTypes (cu.tag type), c.Within S := by
  cases htag : cu.tag type with
  | «class» interface named id entries paddings =>
      rw [structLikeFprintf]
      split
      · exact fun c hc => absurd hc List.not_mem_nil
      · exact within_classFprintf hclosed htype htag
  | union named id members =>
      rw [structLikeFprintf, unionDeclFprintf]
      split
      · exact fun c hc => absurd hc List.not_mem_nil
      · exact within_unionFprintf hclosed htype htag
  | _ => exact fun c hc => absurd hc List.not_mem_nil

theorem within_arrayTypeFprintf (hclosed : cu.Closed S) {zeroSized : Bool}
    (h : ∀ element, cu.type id = some element → element ∈ S) :
    ∀ c ∈ arrayTypeFprintf cu id zeroSized nameLen, c.Within S := by
  rw [arrayTypeFprintf]
  cases hid : cu.type id with
  | none => exact fun c hc => absurd hc List.not_mem_nil
  | some element =>
      dsimp only
      split
      · next inner htag =>
          refine List.forall_mem_singleton.mpr fun t ht => type_mem hclosed (h element hid) ?_
          rw [htag]
          exact ht
      · refine List.forall_mem_singleton.mpr ?_
        rintro t ⟨⟩
        exact h element hid

/-- The loop over pointers stops at a tag of the set, at which it is or which is the target of a
pointer of the set. -/
theorem followPointers_spec (hclosed : cu.Closed S) (htype : type ∈ S)
    (h : followPointers cu fuel type count = some (.at last n)) :
    last ∈ S ∧ cu.StopsPointers last ∧
      (n ≠ count → ∃ pointer ∈ S, ∃ id, cu.tag pointer = .pointer id ∧ cu.type id = some last ∧
        cu.hasTypeLoop pointer last = false) := by
  induction fuel generalizing type count with
  | zero => cases h
  | succ fuel ih =>
      rw [followPointers] at h
      split at h
      · next id htag =>
          split at h
          · next hzero =>
              obtain ⟨rfl, rfl⟩ := Followed.at.inj (Option.some.inj h)
              refine ⟨htype, fun id' htag' => ?_, fun hne => absurd rfl hne⟩
              rw [htag] at htag'
              exact Tag.pointer.inj htag' ▸ hzero
          · cases hid : cu.type id with
            | none =>
                rw [hid] at h
                cases h
            | some ttype =>
                rw [hid] at h
                dsimp only at h
                split at h
                · cases h
                · next hloop =>
                    have hmem := type_mem hclosed htype (by rw [htag]; exact hid)
                    obtain ⟨hlast, hstops, hpointer⟩ := ih hmem h
                    refine ⟨hlast, hstops, fun _ => ?_⟩
                    by_cases hn : n = count + 1
                    · obtain rfl := followPointers_same (hn ▸ h)
                      exact ⟨type, htype, id, htag, hid, by simpa using hloop⟩
                    · exact hpointer hn
      · next hother =>
          obtain ⟨rfl, rfl⟩ := Followed.at.inj (Option.some.inj h)
          exact ⟨htype, fun id htag => absurd htag (hother id), fun hne => absurd rfl hne⟩

theorem followTypedefs_mem (hclosed : cu.Closed S) (htype : type ∈ S)
    (h : followTypedefs cu fuel type = some (.at last n)) : last ∈ S := by
  induction fuel generalizing type with
  | zero => cases h
  | succ fuel ih =>
      rw [followTypedefs] at h
      split at h
      · next id nameLen htag =>
          cases hid : cu.type id with
          | none =>
              rw [hid] at h
              cases h
          | some typeType =>
              rw [hid] at h
              dsimp only at h
              split at h
              · cases h
              · exact ih (type_mem hclosed htype (by rw [htag]; exact hid)) h
      · obtain ⟨rfl, -⟩ := Followed.at.inj (Option.some.inj h)
        exact htype

theorem skipTagAnnotations_mem (hclosed : cu.Closed S) {lastId : TypeId}
    (h : skipTagAnnotations cu fuel id = some lastId)
    (hid : ∀ t, cu.type id = some t → t ∈ S) : ∀ t, cu.type lastId = some t → t ∈ S := by
  induction fuel generalizing id with
  | zero => cases h
  | succ fuel ih =>
      rw [skipTagAnnotations] at h
      split at h
      · obtain rfl := Option.some.inj h
        exact hid
      · cases htype : cu.type id with
        | none =>
            rw [htype] at h
            obtain rfl := Option.some.inj h
            exact hid
        | some type =>
            rw [htype] at h
            dsimp only at h
            split at h
            · next next htag =>
                split at h
                · obtain rfl := Option.some.inj h
                  exact hid
                · refine ih h fun t ht => type_mem hclosed (hid type htype) ?_
                  rw [htag]
                  exact ht
            · obtain rfl := Option.some.inj h
              exact hid

theorem switchFprintf_within (hclosed : cu.Closed S) (htype : type ∈ S) {calls : List Call}
    (h : switchFprintf cu conf expandTypes nameLen fuel type = some (.calls calls)) :
    ∀ c ∈ calls, c.Within S := by
  induction fuel generalizing type with
  | zero => cases h
  | succ fuel ih =>
      have hnil : ∀ calls : List Call, Switched.calls [] = .calls calls →
          ∀ c ∈ calls, c.Within S := by
        rintro _ ⟨⟩ c hc
        cases hc
      have hnext : ∀ id, (∀ t, cu.type id = some t → t ∈ S) →
          (cu.type id).elim (some (.calls [])) (switchFprintf cu conf expandTypes nameLen fuel) =
            some (.calls calls) → ∀ c ∈ calls, c.Within S := by
        intro id hid hrun
        cases htypeId : cu.type id with
        | none =>
            rw [htypeId] at hrun
            exact hnil calls (Option.some.inj hrun)
        | some inner =>
            rw [htypeId] at hrun
            exact ih (hid inner htypeId) hrun
      have hself : ∀ t, cu.type (cu.tag type).type = some t → t ∈ S :=
        fun t => type_mem hclosed htype
      rw [switchFprintf] at h
      cases htag : cu.tag type with
      | pointer id =>
          rw [htag] at h hself
          dsimp only at h
          obtain ⟨ptypeId, hskip, h⟩ := Option.bind_eq_some_iff.mp h
          cases hptype : cu.type ptypeId with
          | none =>
              rw [hptype] at h
              exact hnil calls (Option.some.inj h)
          | some ptype =>
              have hmem := skipTagAnnotations_mem hclosed hskip hself ptype hptype
              rw [hptype] at h
              dsimp only at h
              split at h
              · cases h
              · split at h
                · obtain rfl := Switched.calls.inj (Option.some.inj h)
                  exact within_structLikeFprintf conf expandTypes hclosed hmem
                · exact hnil calls (Option.some.inj h)
      | const id =>
          rw [htag] at h hself
          exact hnext id hself h
      | atomic id =>
          rw [htag] at h hself
          exact hnext id hself h
      | annotated id =>
          rw [htag] at h hself
          exact hnext id hself h
      | array id zeroSized =>
          rw [htag] at h hself
          obtain rfl := Switched.calls.inj (Option.some.inj h)
          exact within_arrayTypeFprintf hclosed hself
      | _ =>
          have hwithin := within_structLikeFprintf conf expandTypes hclosed htype
          rw [htag] at h hwithin
          obtain rfl := Switched.calls.inj (Option.some.inj h)
          exact hwithin

theorem typedefFprintf_within (hclosed : cu.Closed S) {calls : List Call}
    (hid : ∀ t, cu.type id = some t → t ∈ S)
    (h : typedefFprintf cu conf nameLen fuel id = some calls) : ∀ c ∈ calls, c.Within S := by
  induction fuel generalizing id with
  | zero => cases h
  | succ fuel ih =>
      rw [typedefFprintf] at h
      cases htype : cu.type id with
      | none =>
          rw [htype] at h
          obtain rfl := Option.some.inj h
          exact fun c hc => absurd hc List.not_mem_nil
      | some tagType =>
          have hmem := hid tagType htype
          have hself : ∀ t, cu.type (cu.tag tagType).type = some t → t ∈ S :=
            fun t => type_mem hclosed hmem
          have hwithin := within_structLikeFprintf conf conf.expandTypes hclosed hmem
          rw [htype] at h
          dsimp only at h
          cases htag : cu.tag tagType with
          | atomic next =>
              rw [htag] at h hself
              exact ih hself h
          | array element zeroSized =>
              rw [htag] at h hself
              obtain rfl := Option.some.inj h
              exact within_arrayTypeFprintf hclosed hself
          | _ =>
              rw [htag] at h hwithin
              obtain rfl := Option.some.inj h
              exact hwithin

variable {levels : Levels TagPtr} {typeExpanded : Option TagPtr} {p : Plan TagPtr Call}

theorem expandedFprintf_within (hclosed : cu.Closed S) (htype : type ∈ S)
    (h : expandedFprintf cu conf fuel typeExpanded expandTypes nameLen type = some p) :
    ∀ c ∈ p.calls, c.Within S := by
  obtain ⟨followed, hfollowed, hp⟩ := Option.bind_eq_some_iff.mp h
  cases followed with
  | notFound =>
      obtain rfl := Option.some.inj hp
      exact fun c hc => absurd hc List.not_mem_nil
  | loop =>
      obtain rfl := Option.some.inj hp
      exact fun c hc => absurd hc List.not_mem_nil
  | «at» last count =>
      have hlast : last ∈ S := by
        split at hfollowed
        · exact followTypedefs_mem hclosed htype hfollowed
        · exact (Followed.at.inj (Option.some.inj hfollowed)).1 ▸ htype
      obtain ⟨switched, hswitched, rfl⟩ := Option.map_eq_some_iff.mp hp
      cases switched with
      | calls calls => exact switchFprintf_within hclosed hlast hswitched
      | loop => exact fun c hc => absurd hc List.not_mem_nil

theorem tagFprintf_within (hclosed : cu.Closed S) {tag : TagPtr} (htag : tag ∈ S)
    (h : tagFprintf cu conf fuel tag = some p) : ∀ c ∈ p.calls, c.Within S := by
  have hself : ∀ t, cu.type (cu.tag tag).type = some t → t ∈ S := fun t => type_mem hclosed htag
  have hrefs := hclosed tag htag
  unfold tagFprintf at h
  dsimp only at h
  split at h
  · next element zeroSized heq =>
      rw [heq] at hself
      obtain rfl := Option.some.inj h
      exact within_arrayTypeFprintf hclosed hself
  · next id nameLen heq =>
      rw [heq] at hself
      obtain ⟨calls, hcalls, rfl⟩ := Option.map_eq_some_iff.mp h
      exact typedefFprintf_within hclosed hself hcalls
  · next heq =>
      obtain rfl := Option.some.inj h
      exact within_classFprintf hclosed htag heq
  · next type tags heq =>
      rw [heq] at hrefs
      obtain rfl := Option.some.inj h
      exact List.forall_mem_map.mpr fun t ht => hrefs t (List.mem_append_right _ ht)
  · next heq =>
      obtain rfl := Option.some.inj h
      exact within_unionFprintf hclosed htag heq
  · next id nameLen heq =>
      rw [heq] at hself
      obtain rfl := Option.some.inj h
      refine List.forall_mem_map.mpr fun t ht => ?_
      rintro t' ⟨⟩
      exact hself t (Option.mem_toList.mp ht)
  · obtain rfl := Option.some.inj h
    exact fun c hc => absurd hc List.not_mem_nil

theorem planFprintf_within (hclosed : cu.Closed S) {call : Call} (hcall : call.Within S)
    (h : planFprintf cu conf fuel levels call = some p) : ∀ c ∈ p.calls, c.Within S := by
  have hnil : p.calls = [] → ∀ c ∈ p.calls, c.Within S := by
    intro heq c hc
    rw [heq] at hc
    cases hc
  cases call with
  | tag tag => exact tagFprintf_within hclosed hcall h
  | type type nameLen =>
      cases type with
      | none => exact hnil ((Option.some.inj h) ▸ rfl)
      | some type =>
          have hmem : type ∈ S := hcall type rfl
          change typeFprintf cu conf fuel levels (some type) nameLen = some p at h
          unfold typeFprintf at h
          dsimp only at h
          split at h
          · obtain ⟨followed, hfollowed, hp⟩ := Option.bind_eq_some_iff.mp h
            cases followed with
            | notFound => exact hnil ((Option.some.inj hp) ▸ rfl)
            | loop => exact hnil ((Option.some.inj hp) ▸ rfl)
            | «at» last count =>
                dsimp only at hp
                split at hp
                · exact hnil ((Option.some.inj hp) ▸ rfl)
                · exact expandedFprintf_within hclosed
                    (followPointers_spec hclosed hmem hfollowed).1 hp
          · exact expandedFprintf_within hclosed hmem h

end Closed

end Pahole.Fprintf

import Pahole.DwarvesFprintf.TypeLoops

/-!
# Levels after printing

`type__fprintf` returns early from a type loop, without lowering the level that it has raised.
The levels are restored by every call for a type of a closed set exactly when pointers are not
expanded or the set has no type loop that is come to with a level raised.
-/

namespace Pahole.Fprintf

open Bracketed

/-! ## Loops and levels -/

section Loops

variable {cu : Cu} {conf : ConfFprintf} {S : Set TagPtr} {fuel nameLen count : ℕ}
  {expandTypes : Bool} {levels : Levels TagPtr} {type last : TagPtr} {id lastId : TypeId}
  {typeExpanded : Option TagPtr} {p : Plan TagPtr Call}

theorem unannotated_of_skip (h : skipTagAnnotations cu fuel id = some lastId) :
    Unannotated cu id lastId := by
  induction fuel generalizing id with
  | zero => cases h
  | succ fuel ih =>
      rw [skipTagAnnotations] at h
      split at h
      · next hzero =>
          obtain rfl := Option.some.inj h
          exact hzero ▸ .void
      · next hid =>
          cases htype : cu.type id with
          | none =>
              rw [htype] at h
              obtain rfl := Option.some.inj h
              exact .dangling hid htype
          | some type =>
              rw [htype] at h
              dsimp only at h
              split at h
              · next next htag =>
                  split at h
                  · next heq =>
                      obtain rfl := Option.some.inj h
                      exact .self hid htype (heq ▸ htag)
                  · next hne => exact .skip hid htype htag hne (ih h)
              · next hother =>
                  obtain rfl := Option.some.inj h
                  exact .plain hid htype hother

theorem exists_skip (h : Unannotated cu id lastId) :
    ∃ bound, ∀ fuel ≥ bound, skipTagAnnotations cu fuel id = some lastId := by
  induction h with
  | void =>
      refine ⟨1, fun fuel hfuel => ?_⟩
      obtain ⟨fuel, rfl⟩ := Nat.exists_eq_add_of_le' hfuel
      rw [skipTagAnnotations, if_pos rfl]
  | dangling hid htype =>
      refine ⟨1, fun fuel hfuel => ?_⟩
      obtain ⟨fuel, rfl⟩ := Nat.exists_eq_add_of_le' hfuel
      rw [skipTagAnnotations, if_neg hid, htype]
  | plain hid htype htag =>
      refine ⟨1, fun fuel hfuel => ?_⟩
      obtain ⟨fuel, rfl⟩ := Nat.exists_eq_add_of_le' hfuel
      rw [skipTagAnnotations, if_neg hid, htype]
      dsimp only
      split
      · next next heq => exact absurd heq (htag next)
      · rfl
  | self hid htype htag =>
      refine ⟨1, fun fuel hfuel => ?_⟩
      obtain ⟨fuel, rfl⟩ := Nat.exists_eq_add_of_le' hfuel
      rw [skipTagAnnotations, if_neg hid, htype]
      dsimp only
      rw [htag]
      exact if_pos rfl
  | skip hid htype htag hne _ ih =>
      obtain ⟨bound, hbound⟩ := ih
      refine ⟨bound + 1, fun fuel hfuel => ?_⟩
      obtain ⟨fuel, rfl⟩ := Nat.exists_eq_add_of_le' ((Nat.le_add_left 1 bound).trans hfuel)
      rw [skipTagAnnotations, if_neg hid, htype]
      dsimp only
      rw [htag]
      exact (if_neg hne).trans (hbound fuel (Nat.le_of_succ_le_succ hfuel))

theorem pointerLoop_of_switch (h : switchFprintf cu conf expandTypes nameLen fuel type = some .loop) :
    PointerLoop cu type := by
  induction fuel generalizing type with
  | zero => cases h
  | succ fuel ih =>
      have hnext : ∀ id, (cu.tag type).qualified? = some id →
          (cu.type id).elim (some (.calls [])) (switchFprintf cu conf expandTypes nameLen fuel) =
            some .loop → PointerLoop cu type := by
        intro id htag hrun
        cases hid : cu.type id with
        | none =>
            rw [hid] at hrun
            cases hrun
        | some inner =>
            rw [hid] at hrun
            exact .qualified htag hid (ih hrun)
      rw [switchFprintf] at h
      cases htag : cu.tag type with
      | pointer id =>
          rw [htag] at h
          obtain ⟨ptypeId, hskip, h⟩ := Option.bind_eq_some_iff.mp h
          cases hptype : cu.type ptypeId with
          | none =>
              rw [hptype] at h
              cases h
          | some ptype =>
              rw [hptype] at h
              dsimp only at h
              split at h
              · next hloop => exact .here htag (unannotated_of_skip hskip) hptype hloop
              · split at h <;> cases h
      | const id =>
          rw [htag] at h
          exact hnext id (by rw [htag]; rfl) h
      | atomic id =>
          rw [htag] at h
          exact hnext id (by rw [htag]; rfl) h
      | annotated id =>
          rw [htag] at h
          exact hnext id (by rw [htag]; rfl) h
      | _ =>
          rw [htag] at h
          cases h

theorem switch_of_pointerLoop (conf : ConfFprintf) (expandTypes : Bool) (nameLen : ℕ)
    (h : PointerLoop cu type) : ∃ bound, ∀ fuel ≥ bound,
      switchFprintf cu conf expandTypes nameLen fuel type = some .loop := by
  induction h with
  | @here type id ptypeId ptype htag hskip hptype hloop =>
      obtain ⟨bound, hbound⟩ := exists_skip hskip
      refine ⟨bound + 1, fun fuel hfuel => ?_⟩
      obtain ⟨fuel, rfl⟩ := Nat.exists_eq_add_of_le' ((Nat.le_add_left 1 bound).trans hfuel)
      rw [switchFprintf, htag]
      dsimp only
      rw [hbound (fuel + 1) ((Nat.le_succ bound).trans hfuel), Option.bind_some, hptype]
      exact if_pos hloop
  | @qualified type id inner htag hinner _ ih =>
      obtain ⟨bound, hbound⟩ := ih
      refine ⟨bound + 1, fun fuel hfuel => ?_⟩
      obtain ⟨fuel, rfl⟩ := Nat.exists_eq_add_of_le' ((Nat.le_add_left 1 bound).trans hfuel)
      have hrest := hbound fuel (Nat.le_of_succ_le_succ hfuel)
      rw [switchFprintf]
      cases heq : cu.tag type with
      | const id' =>
          obtain rfl : id' = id := by simpa [heq, Tag.qualified?] using htag
          dsimp only
          rw [hinner]
          exact hrest
      | atomic id' =>
          obtain rfl : id' = id := by simpa [heq, Tag.qualified?] using htag
          dsimp only
          rw [hinner]
          exact hrest
      | annotated id' =>
          obtain rfl : id' = id := by simpa [heq, Tag.qualified?] using htag
          dsimp only
          rw [hinner]
          exact hrest
      | _ => simp [heq, Tag.qualified?] at htag

theorem typedefLoop_of_follow (h : followTypedefs cu fuel type = some .loop) :
    TypedefLoop cu type := by
  induction fuel generalizing type with
  | zero => cases h
  | succ fuel ih =>
      rw [followTypedefs] at h
      split at h
      · next id nameLen htag =>
          cases hid : cu.type id with
          | none =>
              rw [hid] at h
              cases h
          | some typeType =>
              rw [hid] at h
              dsimp only at h
              split at h
              · next hloop => exact .here htag hid hloop
              · next hloop => exact .typedef htag hid (by simpa using hloop) (ih h)
      · cases h

theorem typedefLoop_of_pointerLoop (h : followTypedefs cu fuel type = some (.at last count))
    (hlast : PointerLoop cu last) : TypedefLoop cu type := by
  induction fuel generalizing type with
  | zero => cases h
  | succ fuel ih =>
      rw [followTypedefs] at h
      split at h
      · next id nameLen htag =>
          cases hid : cu.type id with
          | none =>
              rw [hid] at h
              cases h
          | some typeType =>
              rw [hid] at h
              dsimp only at h
              split at h
              · cases h
              · next hloop => exact .typedef htag hid (by simpa using hloop) (ih h)
      · next hother =>
          obtain ⟨rfl, -⟩ := Followed.at.inj (Option.some.inj h)
          exact .pointer hother hlast

/-- With enough fuel the loop over typedefs ends at the type loop, or at a type whose pointers
loop. -/
theorem follow_of_typedefLoop (h : TypedefLoop cu type) :
    (∃ bound, ∀ fuel ≥ bound, followTypedefs cu fuel type = some .loop) ∨
      ∃ last, PointerLoop cu last ∧
        ∃ bound, ∀ fuel ≥ bound, followTypedefs cu fuel type = some (.at last 0) := by
  induction h with
  | here htag htype hloop =>
      refine Or.inl ⟨1, fun fuel hfuel => ?_⟩
      obtain ⟨fuel, rfl⟩ := Nat.exists_eq_add_of_le' hfuel
      rw [followTypedefs, htag]
      dsimp only
      rw [htype]
      exact if_pos hloop
  | @typedef type id nameLen typeType htag htype hloop _ ih =>
      have hstep : ∀ fuel, followTypedefs cu (fuel + 1) type = followTypedefs cu fuel typeType := by
        intro fuel
        rw [followTypedefs, htag]
        dsimp only
        rw [htype]
        exact if_neg (by simpa using hloop)
      rcases ih with ⟨bound, hbound⟩ | ⟨last, hlast, bound, hbound⟩
      · refine Or.inl ⟨bound + 1, fun fuel hfuel => ?_⟩
        obtain ⟨fuel, rfl⟩ := Nat.exists_eq_add_of_le' ((Nat.le_add_left 1 bound).trans hfuel)
        rw [hstep]
        exact hbound fuel (Nat.le_of_succ_le_succ hfuel)
      · refine Or.inr ⟨last, hlast, bound + 1, fun fuel hfuel => ?_⟩
        obtain ⟨fuel, rfl⟩ := Nat.exists_eq_add_of_le' ((Nat.le_add_left 1 bound).trans hfuel)
        rw [hstep]
        exact hbound fuel (Nat.le_of_succ_le_succ hfuel)
  | @pointer type htag hpointer =>
      refine Or.inr ⟨type, hpointer, 1, fun fuel hfuel => ?_⟩
      obtain ⟨fuel, rfl⟩ := Nat.exists_eq_add_of_le' hfuel
      rw [followTypedefs]
      split
      · next id nameLen heq => exact absurd heq (htag id nameLen)
      · rfl

theorem expandedFprintf_raised
    (h : expandedFprintf cu conf fuel typeExpanded expandTypes nameLen type = some p) :
    p.raised = typeExpanded := by
  obtain ⟨followed, -, hp⟩ := Option.bind_eq_some_iff.mp h
  cases followed with
  | notFound => exact (Option.some.inj hp) ▸ rfl
  | loop => exact (Option.some.inj hp) ▸ rfl
  | «at» type count =>
      obtain ⟨switched, -, rfl⟩ := Option.map_eq_some_iff.mp hp
      cases switched <;> rfl

/-- If `type__fprintf` returns early, the type leads to a `PointerLoop` or a `TypedefLoop`. -/
theorem loop_of_early
    (h : expandedFprintf cu conf fuel typeExpanded expandTypes nameLen type = some p)
    (hearly : p.early = true) :
    PointerLoop cu type ∨ expandTypes = true ∧ TypedefLoop cu type := by
  obtain ⟨followed, hfollowed, hp⟩ := Option.bind_eq_some_iff.mp h
  cases followed with
  | notFound =>
      obtain rfl := Option.some.inj hp
      cases hearly
  | loop =>
      split at hfollowed
      · next hexpand => exact Or.inr ⟨hexpand, typedefLoop_of_follow hfollowed⟩
      · cases hfollowed
  | «at» last count =>
      obtain ⟨switched, hswitched, rfl⟩ := Option.map_eq_some_iff.mp hp
      cases switched with
      | calls calls => cases hearly
      | loop =>
          have hloop := pointerLoop_of_switch hswitched
          split at hfollowed
          · next hexpand => exact Or.inr ⟨hexpand, typedefLoop_of_pointerLoop hfollowed hloop⟩
          · obtain ⟨rfl, -⟩ := Followed.at.inj (Option.some.inj hfollowed)
            exact Or.inl hloop

theorem expanded_of_pointerLoop (conf : ConfFprintf) (typeExpanded : Option TagPtr)
    (nameLen : ℕ) (h : PointerLoop cu type) : ∃ bound, ∀ fuel ≥ bound,
      expandedFprintf cu conf fuel typeExpanded false nameLen type =
        some ⟨typeExpanded, [], true⟩ := by
  obtain ⟨bound, hbound⟩ := switch_of_pointerLoop conf false nameLen h
  refine ⟨bound, fun fuel hfuel => ?_⟩
  rw [expandedFprintf, if_neg Bool.false_ne_true, Option.bind_some]
  dsimp only
  rw [hbound fuel hfuel]
  rfl

theorem expanded_of_typedefLoop (conf : ConfFprintf) (typeExpanded : Option TagPtr)
    (nameLen : ℕ) (h : TypedefLoop cu type) : ∃ bound, ∀ fuel ≥ bound,
      expandedFprintf cu conf fuel typeExpanded true nameLen type =
        some ⟨typeExpanded, [], true⟩ := by
  rcases follow_of_typedefLoop h with ⟨bound, hbound⟩ | ⟨last, hlast, bound, hbound⟩
  · refine ⟨bound, fun fuel hfuel => ?_⟩
    rw [expandedFprintf, if_pos rfl, hbound fuel hfuel]
    rfl
  · obtain ⟨bound', hbound'⟩ := switch_of_pointerLoop conf true nameLen hlast
    refine ⟨max bound bound', fun fuel hfuel => ?_⟩
    rw [expandedFprintf, if_pos rfl, hbound fuel ((le_max_left _ _).trans hfuel), Option.bind_some]
    dsimp only
    rw [hbound' fuel ((le_max_right _ _).trans hfuel)]
    rfl

theorem tagFprintf_early {tag : TagPtr} (h : tagFprintf cu conf fuel tag = some p) :
    p.early = false := by
  unfold tagFprintf at h
  dsimp only at h
  split at h
  case h_2 =>
    obtain ⟨calls, -, rfl⟩ := Option.map_eq_some_iff.mp h
    rfl
  all_goals exact (Option.some.inj h) ▸ rfl

/-- A call for a tag of a closed set leaves a level raised only where pointers are expanded, and
at a type loop of the set. -/
theorem planFprintf_leaks (hclosed : cu.Closed S)
    (hplain : conf.expandPointers = false ∨ ∀ t ∈ S, ¬LoopsAt cu t) {call : Call}
    (hcall : call.Within S) (h : planFprintf cu conf fuel levels call = some p) (tag : TagPtr) :
    p.leaks tag = false := by
  have hraised : p.raised = none → p.leaks tag = false := fun h => by simp [Plan.leaks, h]
  cases call with
  | tag target => simp [Plan.leaks, tagFprintf_early h]
  | type target nameLen =>
      cases target with
      | none => exact hraised ((Option.some.inj h) ▸ rfl)
      | some type =>
          change typeFprintf cu conf fuel levels (some type) nameLen = some p at h
          unfold typeFprintf at h
          dsimp only at h
          split at h
          · next hexpand =>
              have hno := hplain.resolve_left (by simp [hexpand])
              obtain ⟨followed, hfollowed, hp⟩ := Option.bind_eq_some_iff.mp h
              cases followed with
              | notFound => exact hraised ((Option.some.inj hp) ▸ rfl)
              | loop => exact hraised ((Option.some.inj hp) ▸ rfl)
              | «at» last count =>
                  dsimp only at hp
                  split at hp
                  · exact hraised ((Option.some.inj hp) ▸ rfl)
                  · obtain ⟨hlast, hstops, hpointer⟩ :=
                      followPointers_spec hclosed (hcall type rfl) hfollowed
                    have hearly : p.early = false := by
                      by_contra hearly
                      rcases loop_of_early hp (by simpa using hearly) with hloop | ⟨hcount, hloop⟩
                      · exact hno last hlast (.plain hstops hloop)
                      · obtain ⟨pointer, hmem, id, htag, hid, htypeLoop⟩ :=
                          hpointer (of_decide_eq_true hcount).1
                        exact hno pointer hmem (.target htag hid htypeLoop hstops hloop)
                    simp [Plan.leaks, hearly]
          · exact hraised (expandedFprintf_raised h)

/-- Every print of the type that returns leaves all levels as they were before, for any levels
and length of the name. -/
def Restores (cu : Cu) (conf : ConfFprintf) (type : Option TagPtr) : Prop :=
  ∀ fuel nameLen levels levels' trace,
    printType cu conf fuel type nameLen levels = some (levels', trace) →
      ∀ tag, levels' tag = levels tag

theorem followPointers_of_stops (h : cu.StopsPointers type) :
    followPointers cu (fuel + 1) type count = some (.at type count) := by
  rw [followPointers]
  split
  · next id htag => exact if_pos (h id htag)
  · rfl

/-- With enough fuel, printing a type that loops returns with a level still raised. -/
theorem typeFprintf_of_loopsAt (hexpand : conf.expandPointers = true) (h : LoopsAt cu type) :
    ∃ fuel key, planFprintf cu conf (fuel + 1) (fun _ => 0) (.type (some type) 0) =
      some ⟨some key, [], true⟩ := by
  cases h with
  | plain hstops hloop =>
      obtain ⟨bound, hbound⟩ := expanded_of_pointerLoop conf (some type) 0 hloop
      refine ⟨bound, type, ?_⟩
      rw [planFprintf, typeFprintf, if_pos hexpand, followPointers_of_stops hstops,
        Option.bind_some]
      exact hbound (bound + 1) (Nat.le_succ bound)
  | @target id ttype htag htype htypeLoop hstops hloop =>
      obtain ⟨bound, hbound⟩ := expanded_of_typedefLoop conf (some ttype) 1 hloop
      have hid : id ≠ 0 := by
        rintro rfl
        cases htype
      have hfollow : followPointers cu (bound + 2) type 0 = some (.at ttype 1) := by
        rw [followPointers, htag]
        dsimp only
        rw [if_neg hid, htype]
        exact (if_neg (by simpa using htypeLoop)).trans (followPointers_of_stops hstops)
      refine ⟨bound + 1, ttype, ?_⟩
      rw [planFprintf, typeFprintf, if_pos hexpand, hfollow, Option.bind_some]
      exact hbound (bound + 2) (Nat.le_add_right bound 2)

/-- `type__fprintf` restores the recursion levels for all types of a closed set if and only if
pointers are not expanded or no type of the set reaches a type loop. -/
theorem typeFprintf_restores_iff (cu : Cu) (conf : ConfFprintf) (S : Set TagPtr)
    (hclosed : cu.Closed S) :
    (∀ type : Option TagPtr, (∀ t ∈ type, t ∈ S) → Restores cu conf type) ↔
      conf.expandPointers = false ∨ ∀ type ∈ S, ¬LoopsAt cu type := by
  constructor
  · intro hrestores
    by_contra hnot
    push Not at hnot
    obtain ⟨hexpand, type, hmem, hloops⟩ := hnot
    obtain ⟨fuel, key, hplan⟩ := typeFprintf_of_loopsAt (by simpa using hexpand) hloops
    have hkey := hrestores (some type) (fun t ht => Option.some.inj ht ▸ hmem) (fuel + 1) 0 _ _ _
      (run_of_leaks hplan) key
    rw [Function.update_self] at hkey
    exact absurd hkey (by decide)
  · intro hplain type htype fuel nameLen levels levels' trace hrun tag
    have hwithin : (Call.type type nameLen).Within S := htype
    exact congrFun (run_restores (fun levels call p hcall hp =>
      ⟨planFprintf_leaks hclosed hplain hcall hp, planFprintf_within hclosed hcall hp⟩)
      hwithin hrun) tag

end Loops

/-- A pointer to a typedef of a typedef of itself. -/
def loopCu : Cu where
  tag
    | 1 => .pointer 2
    | 2 => .typedef 3 1
    | _ => .typedef 3 1
  typeAt id := if id ≤ 3 then some id else none

/-- A configuration with `expand_pointers` only. -/
def pointersConf : ConfFprintf where
  expandPointers := true
  expandTypes := false
  showOnlyDataMembers := false

/-- Printing the pointer leaves the level of the first typedef raised. -/
theorem typeFprintf_not_restored :
    ∃ levels' trace, printType loopCu pointersConf 4 (some 1) 1 (fun _ => 0) =
        some (levels', trace) ∧ levels' 2 = 1 := by
  refine ⟨_, _, rfl, ?_⟩
  decide

/-- `struct list { struct list *next; }`, with a pointer to it. -/
def listCu : Cu where
  tag
    | 1 => .class false true 0 [.member { type := 2, nameLen := 4, bitHole := false }] 0
    | _ => .pointer 1
  typeAt id := if id ≤ 2 then some id else none

theorem not_loopsAt_listCu : ∀ type ∈ ({1, 2} : Set TagPtr), ¬LoopsAt listCu type := by
  have hpointer : ¬PointerLoop listCu 1 := by
    rintro (⟨htag, -, -, -⟩ | ⟨htag, -, -⟩) <;> cases htag
  have htypedef : ¬TypedefLoop listCu 1 := by
    rintro (⟨htag, -, -⟩ | ⟨htag, -, -, -⟩ | ⟨-, h⟩)
    · cases htag
    · cases htag
    · exact hpointer h
  rintro type (rfl | rfl) hloops
  · rcases hloops with ⟨-, h⟩ | ⟨htag, -, -, -, -⟩
    · exact hpointer h
    · cases htag
  · rcases hloops with ⟨hstops, -⟩ | ⟨htag, htype, -, -, h⟩
    · exact absurd (hstops 1 rfl) (by decide)
    · cases htag
      cases htype
      exact htypedef h

/-- Printing the pointer goes into the list once, and leaves all levels as before. -/
theorem typeFprintf_restores_list :
    ∃ levels' trace, printType listCu pointersConf 4 (some 2) 1 (fun _ => 0) =
        some (levels', trace) ∧ trace.length = 2 ∧ ∀ tag, levels' tag = 0 := by
  have hclosed : listCu.Closed {1, 2} := by
    rintro tag (rfl | rfl)
    · decide
    · decide
  have hrun : printType listCu pointersConf 4 (some 2) 1 (fun _ => 0) =
      some (_, [{ raised := some 1, calls := [.type (some 2) 4], early := false },
        { raised := some 1, calls := [], early := false }]) := rfl
  refine ⟨_, _, hrun, rfl, ?_⟩
  exact (typeFprintf_restores_iff listCu pointersConf {1, 2} hclosed).mpr
    (Or.inr not_loopsAt_listCu) (some 2) (fun t ht => Option.some.inj ht ▸ Or.inr rfl) _ _ _ _ _ hrun

end Pahole.Fprintf

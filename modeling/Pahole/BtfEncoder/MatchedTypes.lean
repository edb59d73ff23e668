import Pahole.BtfEncoder.TypeShapes

/-!
# What `types__match` compares

`types__match` for two BTFs, against the shapes of their types.  Where no `const` is one
of `void` it ends, and it finds types of one shape and no others the same.
-/

namespace Pahole

open FallibleTable

/-- One round of `types__match`, where `m` compares pairs of ids. -/
def MatchStep.run (m : ℕ → ℕ → Except Crash Bool) : MatchStep → Except Crash Bool
  | .settled same => .ok same
  | .pairs ids => allMatch m ids

/-- `types__match`, in at most `fuel` rounds; `same` says whether the two BTFs are one. -/
def typesMatchIn (same : Bool) (find1 find2 : ℕ → Option BtfType) :
    (fuel : ℕ) → (id1 id2 : ℕ) → Except Crash Bool
  | 0, _, _ => .error .diverge
  | fuel + 1, id1, id2 =>
      if same ∧ id1 = id2 then .ok true
      else if id1 = 0 ∨ id2 = 0 then .ok (id1 = id2)
      else
        match find1 id1, find2 id2 with
        | some t1, some t2 =>
            (matchRound id1 id2 t1 t2).run (typesMatchIn same find1 find2 fuel)
        | _, _ => .error .nullDeref

theorem allMatch_congr {m m' : ℕ → ℕ → Except Crash Bool} (h : ∀ a b, m a b = m' a b)
    (ids : List (ℕ × ℕ)) : allMatch m ids = allMatch m' ids := by
  have hm : m = m' := funext fun a => funext fun b => h a b
  rw [hm]

/-- `typesMatch` is `typesMatchIn` with one BTF on both sides. -/
theorem typesMatch_eq (find : ℕ → Option BtfType) (fuel id1 id2 : ℕ) :
    typesMatch find fuel id1 id2 = typesMatchIn true find find fuel id1 id2 := by
  induction fuel generalizing id1 id2 with
  | zero => rfl
  | succ fuel ih =>
      simp only [typesMatch, typesMatchIn, true_and]
      by_cases hid : id1 = id2
      · rw [if_pos hid, if_pos hid]
      · rw [if_neg hid, if_neg hid]
        by_cases hzero : id1 = 0 ∨ id2 = 0
        · rw [if_pos hzero, if_pos hzero, decide_eq_false hid]
        · rw [if_neg hzero, if_neg hzero]
          cases find id1 with
          | none => rfl
          | some t1 =>
              cases find id2 with
              | none => rfl
              | some t2 =>
                  simp only
                  cases matchRound id1 id2 t1 t2 with
                  | settled same => rfl
                  | pairs ids => exact allMatch_congr ih ids

/-! ## One round -/

/-- `out` is a boolean that is true exactly when `a = b`. -/
def Decides {α : Type} (out : Except Crash Bool) (a b : α) : Prop :=
  ∃ r, out = .ok r ∧ (r = true ↔ a = b)

theorem decides_ok {α : Type} {a b : α} {r : Bool} (h : r = true ↔ a = b) :
    Decides (.ok r) a b :=
  ⟨r, rfl, h⟩

theorem Decides.imp {α β : Type} {out : Except Crash Bool} {a b : α} {c d : β}
    (h : Decides out a b) (hiff : a = b ↔ c = d) : Decides out c d := by
  obtain ⟨r, hr, hr'⟩ := h
  exact ⟨r, hr, hr'.trans hiff⟩

section Round

variable {m : ℕ → ℕ → Except Crash Bool} {rec1 rec2 : ℕ → Option Shape} {t1 t2 : BtfType}
  {s1 s2 : Shape}

/-- A list of one pair is decided as the pair is. -/
theorem allMatch_pair {id1 id2 : ℕ} (h : Decides (m id1 id2) s1 s2) :
    Decides (allMatch m [(id1, id2)]) s1 s2 := by
  obtain ⟨r, hr, hiff⟩ := h
  refine ⟨r, ?_, hiff⟩
  rw [allMatch, hr]
  cases r <;> rfl

/-- Lists of one length are compared element by element. -/
theorem allMatch_zip
    (hm : ∀ id1 id2 s1 s2, rec1 id1 = some s1 → rec2 id2 = some s2 → Decides (m id1 id2) s1 s2)
    {ids1 ids2 : List ℕ} {ss1 ss2 : List Shape} (hlen : ids1.length = ids2.length)
    (h1 : shapesOf rec1 ids1 = some ss1) (h2 : shapesOf rec2 ids2 = some ss2) :
    Decides (allMatch m (ids1.zip ids2)) ss1 ss2 := by
  induction ids1 generalizing ids2 ss1 ss2 with
  | nil =>
      obtain rfl := List.length_eq_zero_iff.mp hlen.symm
      obtain rfl := Option.some.inj h1
      obtain rfl := Option.some.inj h2
      exact decides_ok (by simp)
  | cons id1 ids1 ih =>
      cases ids2 with
      | nil => simp at hlen
      | cons id2 ids2 =>
          simp only [shapesOf] at h1 h2
          split at h1
          · split at h2
            · rename_i s1 ss1' hs1 hss1 _ _ s2 ss2' hs2 hss2
              obtain rfl := Option.some.inj h1
              obtain rfl := Option.some.inj h2
              obtain ⟨r, hr, hiff⟩ := hm id1 id2 s1 s2 hs1 hs2
              obtain ⟨r', hr', hiff'⟩ := ih (Nat.succ.inj hlen) hss1 hss2
              rw [List.zip_cons_cons, allMatch, hr]
              cases r with
              | false =>
                  refine decides_ok ?_
                  have hne : s1 ≠ s2 := fun h => Bool.false_ne_true (hiff.mpr h)
                  simp [hne]
              | true =>
                  refine ⟨r', hr', hiff'.trans ?_⟩
                  simp [hiff.mp rfl]
            · cases h2
          · cases h1

/-- A type of the kind of a reference is a reference. -/
theorem ref_of_fwdKind (kind : RefKind) (h : t2.fwdKind = BtfType.refKind kind) :
    ∃ kind' name type, t2 = .ref kind' name type ∧
      BtfType.refKind kind' = BtfType.refKind kind := by
  cases t2 with
  | ref kind' name type => exact ⟨kind', name, type, rfl, h⟩
  | fwd name isUnion => cases isUnion <;> cases kind <;> cases h
  | composite isUnion name size members => cases isUnion <;> cases kind <;> cases h
  | _ => cases kind <;> cases h

/-- Two structs, unions or enumerations of one kind are compared by their names, which are their
shapes. -/
theorem matchSwitch_named (rec1 rec2 : ℕ → Option Shape)
    (hnamed : t1.fwdKind = .struct ∨ t1.fwdKind = .union ∨ t1.fwdKind = .enum ∨
      t1.fwdKind = .enum64) (hkind : t1.fwdKind = t2.fwdKind) :
    matchSwitch t1 t2 = .settled (namesMatch t1 t2) ∧
      t1.shape rec1 = some (.named t1.fwdKind t1.name) ∧
        t2.shape rec2 = some (.named t2.fwdKind t2.name) := by
  have hshape : ∀ {t : BtfType} (rec : ℕ → Option Shape), (t.fwdKind = .struct ∨
      t.fwdKind = .union ∨ t.fwdKind = .enum ∨ t.fwdKind = .enum64) →
      t.shape rec = some (.named t.fwdKind t.name) ∧
        ((∃ name isUnion, t = .fwd name isUnion) ∨
          (∃ isUnion name size members, t = .composite isUnion name size members) ∨
          (∃ name size values, t = .enum name size values) ∨
          ∃ name size isSigned values, t = .enum64 name size isSigned values) := by
    intro t rec ht
    cases t with
    | fwd name isUnion => exact ⟨rfl, Or.inl ⟨_, _, rfl⟩⟩
    | composite isUnion name size members => exact ⟨rfl, Or.inr (Or.inl ⟨_, _, _, _, rfl⟩)⟩
    | enum name size values => exact ⟨rfl, Or.inr (Or.inr (Or.inl ⟨_, _, _, rfl⟩))⟩
    | enum64 name size isSigned values =>
        exact ⟨rfl, Or.inr (Or.inr (Or.inr ⟨_, _, _, _, rfl⟩))⟩
    | ref kind name type => cases kind <;> simp [BtfType.fwdKind, BtfType.refKind] at ht
    | _ => simp [BtfType.fwdKind] at ht
  obtain ⟨hs1, ht1⟩ := hshape rec1 hnamed
  obtain ⟨hs2, ht2⟩ := hshape rec2 (hkind ▸ hnamed)
  refine ⟨?_, hs1, hs2⟩
  rcases ht1 with ⟨_, isUnion, rfl⟩ | ⟨isUnion, _, _, _, rfl⟩ | ⟨_, _, _, rfl⟩ | ⟨_, _, _, _, rfl⟩ <;>
    rcases ht2 with ⟨_, _, rfl⟩ | ⟨_, _, _, _, rfl⟩ | ⟨_, _, _, rfl⟩ | ⟨_, _, _, _, rfl⟩ <;>
      first
        | rfl
        | cases isUnion <;> rfl

theorem namesMatch_iff : namesMatch t1 t2 = true ↔ t1.name = t2.name := by
  simp [namesMatch]

/-- Two prefixed shapes are equal if and only if the shapes behind the prefix are. -/
theorem prefixed_decides
    (hm : ∀ id1 id2 s1 s2, rec1 id1 = some s1 → rec2 id2 = some s2 → Decides (m id1 id2) s1 s2)
    {kind kind' : BtfKind} (hkind : kind' = kind) {type1 type2 : ℕ}
    (h1 : (rec1 type1).map (.prefixed kind) = some s1)
    (h2 : (rec2 type2).map (.prefixed kind') = some s2) :
    Decides (allMatch m [(type1, type2)]) s1 s2 := by
  obtain ⟨s1', hs1', rfl⟩ := Option.map_eq_some_iff.mp h1
  obtain ⟨s2', hs2', rfl⟩ := Option.map_eq_some_iff.mp h2
  refine (allMatch_pair (hm type1 type2 s1' s2' hs1' hs2')).imp ?_
  simp [hkind]

theorem length_shapesOf {rec : ℕ → Option Shape} {ids : List ℕ} {ss : List Shape}
    (h : shapesOf rec ids = some ss) : ss.length = ids.length := by
  induction ids generalizing ss with
  | nil =>
      obtain rfl := Option.some.inj h
      rfl
  | cons id ids ih =>
      simp only [shapesOf] at h
      split at h
      · rename_i s ss' hs hss'
        obtain rfl := Option.some.inj h
        rw [List.length_cons, ih hss', List.length_cons]
      · cases h

/-- If the referred types are compared by shape, so are two prototypes. -/
theorem proto_decides
    (hm : ∀ id1 id2 s1 s2, rec1 id1 = some s1 → rec2 id2 = some s2 → Decides (m id1 id2) s1 s2)
    {ret1 ret2 : ℕ} {params1 params2 : List BtfParam}
    (h1 : (BtfType.funcProto ret1 params1).shape rec1 = some s1)
    (h2 : (BtfType.funcProto ret2 params2).shape rec2 = some s2) :
    Decides ((matchSwitch (.funcProto ret1 params1) (.funcProto ret2 params2)).run m) s1 s2 := by
  have hsplit : ∀ {rec : ℕ → Option Shape} {ret : ℕ} {params : List BtfParam} {s : Shape},
      (BtfType.funcProto ret params).shape rec = some s →
      ∃ r ps, rec ret = some r ∧ shapesOf rec (params.map BtfParam.type) = some ps ∧
        s = .proto r ps := by
    intro rec ret params s h
    simp only [BtfType.shape] at h
    split at h
    · rename_i r ps hr hps
      exact ⟨r, ps, hr, hps, (Option.some.inj h).symm⟩
    · cases h
  obtain ⟨r1, ps1, hr1, hps1, rfl⟩ := hsplit h1
  obtain ⟨r2, ps2, hr2, hps2, rfl⟩ := hsplit h2
  have hlen1 := length_shapesOf hps1
  have hlen2 := length_shapesOf hps2
  rw [List.length_map] at hlen1 hlen2
  simp only [matchSwitch]
  by_cases hlen : params1.length = params2.length
  · rw [if_neg (by simpa using hlen)]
    have hzip : ((params1.zip params2).map fun p => (p.1.type, p.2.type)) =
        (params1.map BtfParam.type).zip (params2.map BtfParam.type) := by
      rw [List.zip_map]
      rfl
    have hparams := allMatch_zip hm (by simpa using hlen) hps1 hps2
    rw [← hzip] at hparams
    obtain ⟨r, hr, hiff⟩ := hm ret1 ret2 r1 r2 hr1 hr2
    simp only [MatchStep.run, allMatch, hr]
    cases r with
    | false =>
        have hne : r1 ≠ r2 := fun h => Bool.false_ne_true (hiff.mpr h)
        exact decides_ok (by simp [hne])
    | true =>
        refine hparams.imp ?_
        simp [hiff.mp rfl]
  · rw [if_pos hlen]
    refine decides_ok ?_
    have hne : ps1 ≠ ps2 := by
      rintro rfl
      exact hlen (hlen1.symm.trans hlen2)
    simp [hne]

/-- If the referred types are compared by shape, so are two types of one kind. -/
theorem matchSwitch_decides
    (hm : ∀ id1 id2 s1 s2, rec1 id1 = some s1 → rec2 id2 = some s2 → Decides (m id1 id2) s1 s2)
    (hkind : t1.fwdKind = t2.fwdKind) (h1 : t1.shape rec1 = some s1)
    (h2 : t2.shape rec2 = some s2) : Decides ((matchSwitch t1 t2).run m) s1 s2 := by
  have hnamed : (t1.fwdKind = .struct ∨ t1.fwdKind = .union ∨ t1.fwdKind = .enum ∨
      t1.fwdKind = .enum64) → Decides ((matchSwitch t1 t2).run m) s1 s2 := by
    intro hnamed
    obtain ⟨hswitch, hs1, hs2⟩ := matchSwitch_named rec1 rec2 hnamed hkind
    rw [h1] at hs1
    rw [h2] at hs2
    rw [hswitch, Option.some.inj hs1, Option.some.inj hs2]
    refine decides_ok (namesMatch_iff.trans ?_)
    simp [hkind]
  cases t1 with
  | int name1 size1 encoding1 =>
      cases t2 with
      | int name2 size2 encoding2 =>
          obtain rfl := Option.some.inj h1
          obtain rfl := Option.some.inj h2
          refine decides_ok (decide_eq_true_iff.trans ?_)
          rw [namesMatch_iff, Shape.int.injEq]
          simp only [BtfType.name]
          tauto
      | ref kind name type => cases kind <;> cases hkind
      | fwd name isUnion => cases isUnion <;> cases hkind
      | composite isUnion name size members => cases isUnion <;> cases hkind
      | _ => cases hkind
  | float name1 size1 =>
      cases t2 with
      | float name2 size2 =>
          obtain rfl := Option.some.inj h1
          obtain rfl := Option.some.inj h2
          refine decides_ok (decide_eq_true_iff.trans ?_)
          rw [namesMatch_iff, Shape.float.injEq]
          simp only [BtfType.name]
          tauto
      | ref kind name type => cases kind <;> cases hkind
      | fwd name isUnion => cases isUnion <;> cases hkind
      | composite isUnion name size members => cases isUnion <;> cases hkind
      | _ => cases hkind
  | ref kind1 name1 type1 =>
      obtain ⟨kind2, name2, type2, rfl, hkinds⟩ := ref_of_fwdKind _ hkind.symm
      cases kind1 with
      | const =>
          cases kind2 with
          | const => exact allMatch_pair (hm type1 type2 s1 s2 h1 h2)
          | _ => cases hkinds
      | typedef =>
          cases kind2 with
          | typedef =>
              obtain rfl := Option.some.inj h1
              obtain rfl := Option.some.inj h2
              refine decides_ok (namesMatch_iff.trans ?_)
              simp [BtfType.name]
          | _ => cases hkinds
      | func => cases h1
      | _ => cases kind2 <;> first
          | exact prefixed_decides hm hkinds h1 h2
          | cases hkinds
  | array type1 indexType1 nelems1 =>
      cases t2 with
      | array type2 indexType2 nelems2 =>
          obtain ⟨s1', hs1', rfl⟩ := Option.map_eq_some_iff.mp h1
          obtain ⟨s2', hs2', rfl⟩ := Option.map_eq_some_iff.mp h2
          simp only [matchSwitch]
          by_cases hnelems : nelems1 = nelems2
          · rw [if_neg (by simpa using hnelems)]
            refine (allMatch_pair (hm type1 type2 s1' s2' hs1' hs2')).imp ?_
            simp [hnelems]
          · rw [if_pos hnelems]
            exact decides_ok (by simp [hnelems])
      | ref kind name type => cases kind <;> cases hkind
      | fwd name isUnion => cases isUnion <;> cases hkind
      | composite isUnion name size members => cases isUnion <;> cases hkind
      | _ => cases hkind
  | funcProto ret1 params1 =>
      cases t2 with
      | funcProto ret2 params2 =>
          exact proto_decides hm h1 h2
      | ref kind name type => cases kind <;> cases hkind
      | fwd name isUnion => cases isUnion <;> cases hkind
      | composite isUnion name size members => cases isUnion <;> cases hkind
      | _ => cases hkind
  | fwd name isUnion => exact hnamed (by cases isUnion <;> simp [BtfType.fwdKind])
  | composite isUnion name size members =>
      exact hnamed (by cases isUnion <;> simp [BtfType.fwdKind])
  | enum name size values => exact hnamed (by simp [BtfType.fwdKind])
  | enum64 name size isSigned values => exact hnamed (by simp [BtfType.fwdKind])
  | _ => cases h1

end Round

/-! ## All rounds -/

section Rounds

variable {id1 id2 : ℕ} {t t1 t2 : BtfType} {same : Bool} {find find1 find2 : ℕ → Option BtfType}

theorem const_of_fwdKind (h : t.fwdKind = .const) : ∃ name type, t = .ref .const name type := by
  obtain ⟨kind, name, type, rfl, hkind⟩ := ref_of_fwdKind .const h
  cases kind with
  | const => exact ⟨name, type, rfl⟩
  | _ => cases hkind

theorem matchRound_same (h : t1.fwdKind = t2.fwdKind) :
    matchRound id1 id2 t1 t2 = matchSwitch t1 t2 := by
  unfold matchRound
  rw [if_neg (not_not.mpr h)]

theorem matchRound_constLeft {name : Option String} {type1 : ℕ} (h : t2.fwdKind ≠ .const) :
    matchRound id1 id2 (.ref .const name type1) t2 = .pairs [(type1, id2)] := by
  have hne : (BtfType.ref .const name type1).fwdKind ≠ t2.fwdKind := Ne.symm h
  unfold matchRound
  rw [if_pos hne]

theorem matchRound_constRight {name : Option String} {type2 : ℕ} (h : t1.fwdKind ≠ .const) :
    matchRound id1 id2 t1 (.ref .const name type2) = .pairs [(id1, type2)] := by
  have hne : t1.fwdKind ≠ (BtfType.ref .const name type2).fwdKind := h
  unfold matchRound
  rw [if_pos hne]
  cases t1 with
  | ref kind name type =>
      cases kind with
      | const => exact absurd rfl h
      | _ => rfl
  | _ => rfl

theorem matchRound_differ (h1 : t1.fwdKind ≠ .const) (h2 : t2.fwdKind ≠ .const)
    (h : t1.fwdKind ≠ t2.fwdKind) : matchRound id1 id2 t1 t2 = .settled false := by
  unfold matchRound
  rw [if_pos h]
  split
  · exact absurd rfl h1
  · exact absurd rfl h2
  · rfl

/-- No `const` of the BTF is one of `void`. -/
def NoConstVoid (find : ℕ → Option BtfType) : Prop :=
  ∀ id name, find id ≠ some (.ref .const name 0)

/-- Without a CONST of void, only type id 0 has the shape of `void`. -/
theorem shapeOf_ne_void (hvoid : NoConstVoid find) {fuel id : ℕ} {s : Shape}
    (h : shapeOf find fuel id = some s) (hid : id ≠ 0) : s ≠ .void := by
  induction fuel generalizing id s with
  | zero => cases h
  | succ fuel ih =>
      rw [shapeOf, if_neg hid] at h
      obtain ⟨t, ht, hs⟩ := Option.bind_eq_some_iff.mp h
      by_cases hconst : t.fwdKind = .const
      · obtain ⟨name, type, rfl⟩ := const_of_fwdKind hconst
        have htype : type ≠ 0 := by
          rintro rfl
          exact hvoid id name ht
        exact ih hs htype
      · have hkind := kind_of_shape hconst hs
        rintro rfl
        cases hkind

/-- Without such a `const`, rounds that go as deep as the shapes decide about these. -/
theorem typesMatchIn_decides (hsame : same = true → find1 = find2) (hvoid1 : NoConstVoid find1)
    (hvoid2 : NoConstVoid find2) {n f1 f2 : ℕ} {s1 s2 : Shape} (hn : f1 + f2 ≤ n)
    (h1 : shapeOf find1 f1 id1 = some s1) (h2 : shapeOf find2 f2 id2 = some s2) :
    Decides (typesMatchIn same find1 find2 n id1 id2) s1 s2 := by
  induction n generalizing f1 f2 id1 id2 s1 s2 with
  | zero =>
      obtain rfl : f1 = 0 := by omega
      cases h1
  | succ n ih =>
      cases f1 with
      | zero => cases h1
      | succ g1 =>
          cases f2 with
          | zero => cases h2
          | succ g2 =>
              rw [typesMatchIn]
              by_cases heq : same ∧ id1 = id2
              · rw [if_pos heq]
                obtain ⟨htrue, rfl⟩ := heq
                obtain rfl := hsame htrue
                exact decides_ok (by simp [HasShape.unique ⟨_, h1⟩ ⟨_, h2⟩])
              rw [if_neg heq]
              by_cases hzero : id1 = 0 ∨ id2 = 0
              · rw [if_pos hzero]
                refine decides_ok (decide_eq_true_iff.trans ?_)
                by_cases hid1 : id1 = 0
                · rw [shapeOf, if_pos hid1] at h1
                  obtain rfl := Option.some.inj h1
                  by_cases hid2 : id2 = 0
                  · rw [shapeOf, if_pos hid2] at h2
                    obtain rfl := Option.some.inj h2
                    simp [hid1, hid2]
                  · have hne := shapeOf_ne_void hvoid2 h2 hid2
                    rw [hid1]
                    exact ⟨fun h => absurd h.symm hid2, fun h => absurd h.symm hne⟩
                · have hid2 : id2 = 0 := hzero.resolve_left hid1
                  have hne := shapeOf_ne_void hvoid1 h1 hid1
                  rw [shapeOf, if_pos hid2] at h2
                  obtain rfl := Option.some.inj h2
                  rw [hid2]
                  exact ⟨fun h => absurd h hid1, fun h => absurd h hne⟩
              rw [if_neg hzero]
              obtain ⟨hid1, hid2⟩ := not_or.mp hzero
              have hs1 := h1
              have hs2 := h2
              rw [shapeOf, if_neg hid1] at hs1
              rw [shapeOf, if_neg hid2] at hs2
              obtain ⟨t1, ht1, hs1⟩ := Option.bind_eq_some_iff.mp hs1
              obtain ⟨t2, ht2, hs2⟩ := Option.bind_eq_some_iff.mp hs2
              rw [ht1, ht2]
              by_cases hkind : t1.fwdKind = t2.fwdKind
              · simp only [matchRound_same hkind]
                exact matchSwitch_decides (fun _ _ _ _ ha hb => ih (by omega) ha hb) hkind
                  hs1 hs2
              by_cases hconst1 : t1.fwdKind = .const
              · obtain ⟨name, type1, rfl⟩ := const_of_fwdKind hconst1
                have hne : t2.fwdKind ≠ .const := fun h => hkind (hconst1.trans h.symm)
                simp only [matchRound_constLeft hne]
                have hrounds : g1 + (g2 + 1) ≤ n := by omega
                exact allMatch_pair (ih hrounds hs1 h2)
              by_cases hconst2 : t2.fwdKind = .const
              · obtain ⟨name, type2, rfl⟩ := const_of_fwdKind hconst2
                simp only [matchRound_constRight hconst1]
                have hrounds : g1 + 1 + g2 ≤ n := by omega
                exact allMatch_pair (ih hrounds h1 hs2)
              · simp only [matchRound_differ hconst1 hconst2 hkind]
                refine decides_ok ⟨fun h => absurd h Bool.false_ne_true, ?_⟩
                rintro rfl
                have hkinds := (kind_of_shape hconst1 hs1).symm.trans (kind_of_shape hconst2 hs2)
                exact absurd (Option.some.inj hkinds) hkind

/-- A type id other than 0 never matches `void`. -/
theorem typesMatchIn_void {n id : ℕ} {r : Bool} (hid : id ≠ 0)
    (h : typesMatchIn same find1 find2 n id 0 = .ok r) : r = false := by
  cases n with
  | zero => cases h
  | succ n =>
      have hneq : ¬(same ∧ id = 0) := fun h => hid h.2
      rw [typesMatchIn, if_neg hneq, if_pos (Or.inr rfl), decide_eq_false hid] at h
      exact (Except.ok.inj h).symm

theorem allMatch_mono {m m' : ℕ → ℕ → Except Crash Bool}
    (h : ∀ a b r, m a b = .ok r → m' a b = .ok r) {ids : List (ℕ × ℕ)} {r : Bool}
    (hr : allMatch m ids = .ok r) : allMatch m' ids = .ok r := by
  induction ids with
  | nil => exact hr
  | cons p ids ih =>
      obtain ⟨a, b⟩ := p
      rw [allMatch] at hr ⊢
      cases hm : m a b with
      | error crash =>
          rw [hm] at hr
          cases hr
      | ok same =>
          rw [hm] at hr
          rw [h a b same hm]
          cases same with
          | true => exact ih hr
          | false => exact hr

/-- A result found within `n` rounds is found within `n + 1`. -/
theorem typesMatchIn_succ {n : ℕ} {r : Bool} (h : typesMatchIn same find1 find2 n id1 id2 = .ok r) :
    typesMatchIn same find1 find2 (n + 1) id1 id2 = .ok r := by
  induction n generalizing id1 id2 r with
  | zero => cases h
  | succ n ih =>
      rw [typesMatchIn] at h ⊢
      split
      · rename_i hsame
        rwa [if_pos hsame] at h
      rename_i hsame
      rw [if_neg hsame] at h
      split
      · rename_i hzero
        rwa [if_pos hzero] at h
      rename_i hzero
      rw [if_neg hzero] at h
      cases ht1 : find1 id1 with
      | none =>
          rw [ht1] at h
          cases h
      | some t1 =>
          cases ht2 : find2 id2 with
          | none =>
              rw [ht1, ht2] at h
              cases h
          | some t2 =>
              rw [ht1, ht2] at h
              simp only at h ⊢
              cases hround : matchRound id1 id2 t1 t2 with
              | settled same' =>
                  rw [hround] at h
                  exact h
              | pairs ids =>
                  rw [hround] at h
                  exact allMatch_mono (fun _ _ _ => ih) h

theorem typesMatchIn_mono {n m : ℕ} {r : Bool} (hle : n ≤ m)
    (h : typesMatchIn same find1 find2 n id1 id2 = .ok r) :
    typesMatchIn same find1 find2 m id1 id2 = .ok r := by
  induction hle with
  | refl => exact h
  | step _ ih => exact typesMatchIn_succ ih

theorem typesMatchIn_unique {n m : ℕ} {r r' : Bool}
    (h : typesMatchIn same find1 find2 n id1 id2 = .ok r)
    (h' : typesMatchIn same find1 find2 m id1 id2 = .ok r') : r = r' := by
  have hmax := typesMatchIn_mono (le_max_left n m) h
  rw [typesMatchIn_mono (le_max_right n m) h'] at hmax
  exact (Except.ok.inj hmax).symm

end Rounds

/-! ## Types of several BTFs -/

section Nodes

variable {ι : Type} (btf : ι → TypeGraph)

/-- A type of one of the BTFs. -/
def TypeNode : Type := {x : ι × ℕ // IsTypeId (btf x.1).types x.2}

/-- The two types have a shape in common; each has at most one. -/
def SameShape (x y : TypeNode btf) : Prop :=
  ∃ s, HasShape (btf x.1.1).find x.1.2 s ∧ HasShape (btf y.1.1).find y.1.2 s

variable {btf} in
theorem sameShape_equivalence : Equivalence (SameShape btf) where
  refl x := by
    obtain ⟨s, hs⟩ := exists_hasShape x.2
    exact ⟨s, hs, hs⟩
  symm := by
    rintro x y ⟨s, hx, hy⟩
    exact ⟨s, hy, hx⟩
  trans := by
    rintro x y z ⟨s, hx, hy⟩ ⟨s', hy', hz⟩
    obtain rfl := hy.unique hy'
    exact ⟨s, hx, hz⟩

variable [DecidableEq ι]

/-- `types__match` of two types, each with its BTF. -/
def typesMatchAt (fuel : ℕ) (x y : TypeNode btf) : Except Crash Bool :=
  typesMatchIn (decide (x.1.1 = y.1.1)) (btf x.1.1).find (btf y.1.1).find fuel x.1.2 y.1.2

/-- `types__match` ends with a result. -/
def MatchEnds (x y : TypeNode btf) : Prop := ∃ fuel r, typesMatchAt btf fuel x y = .ok r

/-- `types__match` returns true. -/
def Matches (x y : TypeNode btf) : Prop := ∃ fuel, typesMatchAt btf fuel x y = .ok true

/-- `types__match` returns on all pairs of types, is an equivalence relation, and is true
exactly for pairs of the same shape. -/
structure MatchesShapes : Prop where
  ends : ∀ x y, MatchEnds btf x y
  equivalence : Equivalence (Matches btf)
  exact : ∀ x y, Matches btf x y ↔ SameShape btf x y

variable {btf}

theorem typesMatchAt_decides (hvoid : ∀ i, NoConstVoid (btf i).find) (x y : TypeNode btf) :
    ∃ fuel r, typesMatchAt btf fuel x y = .ok r ∧ (r = true ↔ SameShape btf x y) := by
  obtain ⟨s1, f1, h1⟩ := exists_hasShape x.2
  obtain ⟨s2, f2, h2⟩ := exists_hasShape y.2
  have hsame : decide (x.1.1 = y.1.1) = true → (btf x.1.1).find = (btf y.1.1).find := by
    intro h
    rw [of_decide_eq_true h]
  obtain ⟨r, hr, hiff⟩ := typesMatchIn_decides hsame (hvoid _) (hvoid _) (le_refl _) h1 h2
  refine ⟨f1 + f2, r, hr, hiff.trans ?_⟩
  constructor
  · rintro rfl
    exact ⟨s1, ⟨f1, h1⟩, ⟨f2, h2⟩⟩
  · rintro ⟨s, hx, hy⟩
    exact (HasShape.unique ⟨f1, h1⟩ hx).trans (hy.unique ⟨f2, h2⟩)

theorem matches_iff_sameShape (hvoid : ∀ i, NoConstVoid (btf i).find) (x y : TypeNode btf) :
    Matches btf x y ↔ SameShape btf x y := by
  obtain ⟨fuel, r, hr, hiff⟩ := typesMatchAt_decides hvoid x y
  rw [← hiff]
  constructor
  · rintro ⟨fuel', hr'⟩
    exact (typesMatchIn_unique hr hr')
  · rintro rfl
    exact ⟨fuel, hr⟩

/-- A `const` of `void` has the shape of `void` and does not match it. -/
theorem noConstVoid_of_matchesShapes (h : MatchesShapes btf) (i : ι) :
    NoConstVoid (btf i).find := by
  intro id name hconst
  have hid : id ≠ 0 := by
    rintro rfl
    cases hconst
  let x : TypeNode btf := ⟨(i, id), Or.inr ⟨_, hconst, rfl⟩⟩
  let y : TypeNode btf := ⟨(i, 0), Or.inl rfl⟩
  have hx : HasShape (btf i).find id .void := by
    refine ⟨2, ?_⟩
    rw [shapeOf, if_neg hid, hconst]
    rfl
  obtain ⟨fuel, hmatch⟩ := (h.exact x y).mpr ⟨.void, hx, 1, rfl⟩
  exact absurd (typesMatchIn_void hid hmatch) (by simp)

/-- `types__match` ends, is an equivalence and compares shapes exactly when no `const` of
the BTFs is one of `void`. -/
theorem matchesShapes_iff : MatchesShapes btf ↔ ∀ i, NoConstVoid (btf i).find := by
  constructor
  · exact noConstVoid_of_matchesShapes
  · intro hvoid
    have hexact := matches_iff_sameShape hvoid
    refine ⟨?_, ⟨?_, ?_, ?_⟩, hexact⟩
    · intro x y
      obtain ⟨fuel, r, hr, -⟩ := typesMatchAt_decides hvoid x y
      exact ⟨fuel, r, hr⟩
    · intro x
      exact (hexact x x).mpr (sameShape_equivalence.refl x)
    · intro x y hxy
      exact (hexact y x).mpr (sameShape_equivalence.symm ((hexact x y).mp hxy))
    · intro x y z hxy hyz
      exact (hexact x z).mpr
        (sameShape_equivalence.trans ((hexact x y).mp hxy) ((hexact y z).mp hyz))

end Nodes

/-! ## `const void` -/

theorem followedFrom_constVoid (id : ℕ) :
    followedFrom [.ref .const none 0] id = if id = 1 then [0] else [] := by
  rcases id with _ | _ | id <;> rfl

/-- A BTF with nothing but `const void`. -/
def constVoidGraph : TypeGraph where
  types := [.ref .const none 0]
  closed := by
    intro id _ r hr
    rw [followedFrom_constVoid] at hr
    split at hr
    · exact Or.inl (List.mem_singleton.mp hr)
    · exact absurd hr List.not_mem_nil
  acyclic := by
    intro id hcyclic
    refine Walk.not_exists_within hcyclic ⟨2, fun r hr s hs => ?_⟩
    rw [followedFrom_constVoid] at hr
    split at hr
    · obtain rfl := List.mem_singleton.mp hr
      cases hs
    · exact absurd hr List.not_mem_nil

/-- In a BTF with a CONST of void, matching does not follow the shapes. -/
theorem not_matchesShapes_constVoid : ¬MatchesShapes fun _ : Bool => constVoidGraph :=
  fun h => noConstVoid_of_matchesShapes h true 1 none rfl

end Pahole

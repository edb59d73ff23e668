import Pahole.BtfEncoder.EncodeTag
import Pahole.BtfEncoder.MatchedTypes
import Pahole.BtfEncoder.SaveFunc

/-!
# The prototypes of saved functions

`btf_encoder__save_func` fills in the parameters of a state, and `funcs__match`
compares them, with an index of eight bits.  What is saved and compared beyond 256
parameters is settled here.
-/

namespace Pahole

open FallibleTable

/-! ## Writing with an index of eight bits -/

section WriteFrom

variable {γ : Type}

theorem writeFrom_concat (idx : ℕ) (hidx : idx < 256) (xs : List γ) (x : γ) (arr : List γ) :
    writeFrom idx (xs ++ [x]) arr =
      (writeFrom idx xs arr).set ((idx + xs.length) % 256) x := by
  induction xs generalizing idx arr with
  | nil =>
      have hmod : (idx + 0) % 256 = idx := by omega
      rw [List.nil_append, List.length_nil, hmod]
      rfl
  | cons y ys ih =>
      have hmod : ((idx + 1) % 256 + ys.length) % 256 = (idx + (ys.length + 1)) % 256 := by
        omega
      rw [List.cons_append, writeFrom, ih _ (Nat.mod_lt _ (by decide)), hmod, List.length_cons,
        writeFrom]

@[simp]
theorem length_writeFrom (idx : ℕ) (xs arr : List γ) :
    (writeFrom idx xs arr).length = arr.length := by
  induction xs generalizing idx arr with
  | nil => rfl
  | cons x xs ih => rw [writeFrom, ih, List.length_set]

/-- An entry whose index does not fit eight bits is not written. -/
theorem getElem?_writeFrom_far (xs arr : List γ) {j : ℕ} (hj : 256 ≤ j) :
    (writeFrom 0 xs arr)[j]? = arr[j]? := by
  induction xs using List.reverseRecOn with
  | nil => rfl
  | append_singleton xs x ih =>
      have hne : (0 + xs.length) % 256 ≠ j := by omega
      rw [writeFrom_concat 0 (by decide), List.getElem?_set_ne hne, ih]

/-- An entry below 256 holds the last value written to its index modulo 256. -/
theorem getElem?_writeFrom (xs arr : List γ) {j : ℕ} (hj : j < 256) (hlt : j < arr.length) :
    (writeFrom 0 xs arr)[j]? =
      if j < xs.length then xs[j + 256 * ((xs.length - 1 - j) / 256)]? else arr[j]? := by
  induction xs using List.reverseRecOn with
  | nil => rfl
  | append_singleton xs x ih =>
      rw [writeFrom_concat 0 (by decide), List.length_append, List.length_singleton]
      by_cases hhere : (0 + xs.length) % 256 = j
      · have hlen : j < (writeFrom 0 xs arr).length := by
          rw [length_writeFrom]
          exact hlt
        have hlast : j + 256 * ((xs.length + 1 - 1 - j) / 256) = xs.length := by omega
        rw [hhere, List.getElem?_set_self hlen, if_pos (by omega), hlast,
          List.getElem?_concat_length]
      · rw [List.getElem?_set_ne hhere, ih]
        by_cases hbefore : j < xs.length
        · have hsame : (xs.length + 1 - 1 - j) / 256 = (xs.length - 1 - j) / 256 := by omega
          rw [if_pos hbefore, if_pos (by omega), hsame, List.getElem?_append_left (by omega)]
        · rw [if_neg hbefore, if_neg (by omega)]

end WriteFrom

/-! ## Saved parameters -/

/-- The entries that `btf_encoder__save_func` makes for the parameters it keeps. -/
def Encoder.keptParms (enc : Encoder) (fn : Function) (loc : Option Loc) : List FuncParm :=
  (fn.proto.savedParms enc.trueSignature loc.isSome).map fun param =>
    ⟨param.savedName enc.trueSignature fn.proto, enc.tagType param.type⟩

/-- A prototype as it is to be saved. -/
def exactPrototype (kept : List FuncParm) (vararg : Bool) : List FuncParm :=
  kept ++ if vararg then [FuncParm.zero] else []

/-- The state counts and holds one entry for each parameter kept, and one more for `...`, and
their number fits 16 bits. -/
def FuncState.HasPrototype (state : FuncState) (kept : List FuncParm) (vararg : Bool) : Prop :=
  state.nrParms = (exactPrototype kept vararg).length ∧ state.nrParms < 2 ^ 16 ∧
    state.parms.take state.nrParms = exactPrototype kept vararg

/-- Every parameter whose index does not fit eight bits is zero, as is the one whose entry it is
written over, and the entry of `...` is not written over one with a type. -/
def NoneOverwritten (kept : List FuncParm) (vararg : Bool) : Prop :=
  (∀ i p, 256 ≤ i → kept[i]? = some p →
      p = FuncParm.zero ∧ kept[i % 256]? = some FuncParm.zero) ∧
    (vararg = true → 256 ≤ kept.length →
      ∀ p, kept[kept.length % 256]? = some p → p.typeId = 0)

/-- Among at most 256 entries none is written over. -/
theorem noneOverwritten_of_le {kept : List FuncParm} {vararg : Bool}
    (h : kept.length + vararg.toNat ≤ 256) : NoneOverwritten kept vararg := by
  constructor
  · intro i p hi hp
    have hlt := (List.getElem?_eq_some_iff.mp hp).1
    omega
  · intro hvararg hlen
    subst hvararg
    have hone : true.toNat = 1 := rfl
    omega

/-- The array of a state after the loop over the parameters. -/
def filledParms (kept : List FuncParm) (vararg : Bool) (room : ℕ) : List FuncParm :=
  let parms := writeFrom 0 kept (List.replicate room FuncParm.zero)
  if vararg then parms.modify (kept.length % 256) fun p => { p with typeId := 0 } else parms

theorem stateParms_eq (enc : Encoder) (fn : Function) (loc : Option Loc) :
    fn.proto.stateParms enc.tagType enc.trueSignature loc.isSome =
      filledParms (enc.keptParms fn loc) fn.proto.unspecParms
        (fn.proto.parms.length + fn.proto.unspecParms.toNat) := by
  simp only [Ftype.stateParms, filledParms, Encoder.keptParms, List.length_map]

section Filled

variable {kept : List FuncParm} {vararg : Bool} {room : ℕ}

/-- The vararg marker only has its type set. -/
def markVararg (vararg : Bool) (kept : List FuncParm) (j : ℕ) (p : FuncParm) : FuncParm :=
  if vararg = true ∧ kept.length % 256 = j then { p with typeId := 0 } else p

@[simp]
theorem markVararg_zero (j : ℕ) : markVararg vararg kept j FuncParm.zero = FuncParm.zero := by
  unfold markVararg
  split <;> rfl

theorem getElem?_filledParms (j : ℕ) :
    (filledParms kept vararg room)[j]? =
      (writeFrom 0 kept (List.replicate room FuncParm.zero))[j]?.map (markVararg vararg kept j) := by
  cases vararg with
  | false =>
      have hid : markVararg false kept j = id := by
        funext p
        simp [markVararg]
      rw [hid, Option.map_id, id]
      rfl
  | true =>
      have hmark : markVararg true kept j =
          fun p => if kept.length % 256 = j then { p with typeId := 0 } else p := by
        funext p
        simp [markVararg]
      rw [hmark]
      exact List.getElem?_modify _ _ _ _

theorem getElem?_filledParms_far {j : ℕ} (hj : 256 ≤ j) (hroom : j < room) :
    (filledParms kept vararg room)[j]? = some FuncParm.zero := by
  rw [getElem?_filledParms, getElem?_writeFrom_far _ _ hj, List.getElem?_replicate_of_lt hroom,
    Option.map_some, markVararg_zero]

theorem getElem?_filledParms_near {j : ℕ} (hj : j < 256) (hroom : j < room) :
    (filledParms kept vararg room)[j]? =
      (if j < kept.length then kept[j + 256 * ((kept.length - 1 - j) / 256)]?
        else some FuncParm.zero).map (markVararg vararg kept j) := by
  rw [getElem?_filledParms, getElem?_writeFrom _ _ hj (by rwa [List.length_replicate]),
    List.getElem?_replicate_of_lt hroom]

theorem length_exactPrototype (kept : List FuncParm) (vararg : Bool) :
    (exactPrototype kept vararg).length = kept.length + vararg.toNat := by
  rw [exactPrototype, List.length_append]
  cases vararg <;> rfl

theorem getElem?_exactPrototype_left {j : ℕ} (hj : j < kept.length) :
    (exactPrototype kept vararg)[j]? = kept[j]? :=
  List.getElem?_append_left hj

/-- After the parameters of a prototype comes the marker only. -/
theorem getElem?_exactPrototype_right {j : ℕ} (hj : kept.length ≤ j)
    (hlt : j < (exactPrototype kept vararg).length) :
    (exactPrototype kept vararg)[j]? = some FuncParm.zero := by
  cases vararg with
  | false =>
      rw [length_exactPrototype] at hlt
      exact absurd hj (not_le.mpr hlt)
  | true =>
      rw [length_exactPrototype] at hlt
      have hone : true.toNat = 1 := rfl
      obtain rfl : j = kept.length := by omega
      exact List.getElem?_concat_length

/-- The array of a state agrees with the prototype entry by entry. -/
theorem take_filledParms_iff :
    (filledParms kept vararg room).take (exactPrototype kept vararg).length =
        exactPrototype kept vararg ↔
      ∀ j < (exactPrototype kept vararg).length,
        (filledParms kept vararg room)[j]? = (exactPrototype kept vararg)[j]? := by
  constructor
  · intro h j hj
    rw [← List.getElem?_take_of_lt hj, h]
  · intro h
    apply List.ext_getElem?
    intro j
    rcases lt_or_ge j (exactPrototype kept vararg).length with hj | hj
    · rw [List.getElem?_take_of_lt hj, h j hj]
    · rw [List.getElem?_eq_none hj, List.getElem?_eq_none]
      exact (List.length_take_le _ _).trans hj

/-- If the filled array agrees with the prototype, no entry was written over. -/
theorem noneOverwritten_of_agree
    (hroom : kept.length + vararg.toNat ≤ room)
    (h : ∀ j < (exactPrototype kept vararg).length,
      (filledParms kept vararg room)[j]? = (exactPrototype kept vararg)[j]?) :
    NoneOverwritten kept vararg := by
  have hagree : ∀ j < kept.length, (filledParms kept vararg room)[j]? = kept[j]? := by
    intro j hj
    rw [h j (by rw [length_exactPrototype]; omega), getElem?_exactPrototype_left hj]
  have hfar : ∀ i p, 256 ≤ i → kept[i]? = some p → p = FuncParm.zero := by
    intro i p hi hp
    have hlt := (List.getElem?_eq_some_iff.mp hp).1
    have hsame := hagree i hlt
    rw [getElem?_filledParms_far hi (by omega), hp] at hsame
    exact (Option.some.inj hsame).symm
  constructor
  · intro i p hi hp
    have hlt := (List.getElem?_eq_some_iff.mp hp).1
    refine ⟨hfar i p hi hp, ?_⟩
    set last := i % 256 + 256 * ((kept.length - 1 - i % 256) / 256) with hlast
    have hagain : 256 ≤ last := by omega
    have hbound : last < kept.length := by omega
    obtain ⟨q, hq⟩ : ∃ q, kept[last]? = some q :=
      ⟨kept[last], List.getElem?_eq_getElem hbound⟩
    rw [← hagree _ (by omega), getElem?_filledParms_near (Nat.mod_lt _ (by decide)) (by omega),
      if_pos (by omega), ← hlast, hq, hfar last q hagain hq, Option.map_some,
      markVararg_zero]
  · intro hvararg hlen p hp
    have hlt : kept.length % 256 < 256 := Nat.mod_lt _ (by decide)
    have hsame := hagree _ (lt_of_lt_of_le hlt hlen)
    rw [hp, getElem?_filledParms] at hsame
    obtain ⟨q, -, rfl⟩ := Option.map_eq_some_iff.mp hsame
    simp [markVararg, hvararg]

/-- Where nothing is written over, all entries agree. -/
theorem agree_of_noneOverwritten (hroom : kept.length + vararg.toNat ≤ room)
    (h : NoneOverwritten kept vararg) {j : ℕ}
    (hj : j < (exactPrototype kept vararg).length) :
    (filledParms kept vararg room)[j]? = (exactPrototype kept vararg)[j]? := by
  obtain ⟨hfar, hmark⟩ := h
  have hjroom : j < room := by
    rw [length_exactPrototype] at hj
    omega
  rcases lt_or_ge j kept.length with hkept | hkept
  · obtain ⟨p, hp⟩ : ∃ p, kept[j]? = some p :=
      ⟨kept[j], List.getElem?_eq_getElem hkept⟩
    rw [getElem?_exactPrototype_left hkept, hp]
    rcases lt_or_ge j 256 with hnear | hnear
    · rw [getElem?_filledParms_near hnear hjroom, if_pos hkept]
      set last := j + 256 * ((kept.length - 1 - j) / 256) with hlast
      have hbound : last < kept.length := by omega
      rcases lt_or_ge last 256 with honce | hagain
      · have hsame : last = j := by omega
        rw [hsame, hp, Option.map_some, markVararg]
        split
        · next hv =>
            have hzero : p.typeId = 0 := hmark hv.1 (by omega) p (by rw [hv.2, hp])
            rw [← hzero]
        · rfl
      · obtain ⟨q, hq⟩ : ∃ q, kept[last]? = some q :=
          ⟨kept[last], List.getElem?_eq_getElem hbound⟩
        obtain ⟨rfl, hslot⟩ := hfar last q hagain hq
        have hmod : last % 256 = j := by omega
        rw [hmod, hp] at hslot
        rw [hq, hslot, Option.map_some, markVararg_zero]
    · rw [getElem?_filledParms_far hnear hjroom, (hfar j p hnear hp).1]
  · rw [getElem?_exactPrototype_right hkept hj]
    rcases lt_or_ge j 256 with hnear | hnear
    · rw [getElem?_filledParms_near hnear hjroom, if_neg (not_lt.mpr hkept), Option.map_some,
        markVararg_zero]
    · exact getElem?_filledParms_far hnear hjroom

theorem filledParms_exact_iff (hroom : kept.length + vararg.toNat ≤ room) :
    (filledParms kept vararg room).take (exactPrototype kept vararg).length =
        exactPrototype kept vararg ↔
      NoneOverwritten kept vararg :=
  take_filledParms_iff.trans
    ⟨noneOverwritten_of_agree hroom, fun h _ hj => agree_of_noneOverwritten hroom h hj⟩

end Filled

theorem length_savedParms_le (trueSignature hasLoc : Bool) (ftype : Ftype) :
    (ftype.savedParms trueSignature hasLoc).length ≤ ftype.parms.length := by
  unfold Ftype.savedParms
  split
  · exact le_refl _
  · exact List.length_filter_le _ _

theorem length_keptParms_le (enc : Encoder) (fn : Function) (loc : Option Loc) :
    (enc.keptParms fn loc).length ≤ fn.proto.parms.length := by
  rw [Encoder.keptParms, List.length_map]
  exact length_savedParms_le _ _ _

/-- A saved state has its prototype exactly when none of it was written over. -/
theorem hasPrototype_funcState_iff {enc : Encoder} {fn : Function} (func : Option ElfPtr)
    {loc : Option Loc} (hparms : fn.proto.parms.length < 65535) :
    (enc.funcState enc.tagType fn func loc).HasPrototype (enc.keptParms fn loc)
        fn.proto.unspecParms ↔
      NoneOverwritten (enc.keptParms fn loc) fn.proto.unspecParms := by
  have hkept := length_keptParms_le enc fn loc
  have hnr : (enc.funcState enc.tagType fn func loc).nrParms =
      (exactPrototype (enc.keptParms fn loc) fn.proto.unspecParms).length := by
    rw [length_exactPrototype, Encoder.keptParms, List.length_map]
    rfl
  have hbits : (enc.funcState enc.tagType fn func loc).nrParms < 2 ^ 16 := by
    rw [hnr, length_exactPrototype]
    have hone : fn.proto.unspecParms.toNat ≤ 1 := Bool.toNat_le _
    omega
  have hroom : (enc.keptParms fn loc).length + fn.proto.unspecParms.toNat ≤
      fn.proto.parms.length + fn.proto.unspecParms.toNat := Nat.add_le_add_right hkept _
  refine Iff.trans ?_ (filledParms_exact_iff hroom)
  rw [← stateParms_eq]
  constructor
  · rintro ⟨-, -, h⟩
    rw [hnr] at h
    exact h
  · intro h
    refine ⟨hnr, hbits, ?_⟩
    rw [hnr]
    exact h

theorem pushState_inj {enc : Encoder} {state state' : FuncState}
    (h : enc.pushState state = enc.pushState state') : state = state' := by
  have hloc := congrArg Encoder.locStates h
  have hfunc := congrArg Encoder.funcStates h
  unfold Encoder.pushState at hloc hfunc
  split at hloc <;> split at hloc <;> simp_all

/-- Adding strings leaves the BTF and the encoder as they are. -/
theorem run_strings (strings : List String) (t : Table BtfType Encoder) :
    Plan.run (strings.flatMap fun _ => callPlan CallSite.str .touch) t = t := by
  induction strings with
  | nil => rfl
  | cons string strings ih =>
      rw [List.flatMap_cons, run_append]
      exact ih

theorem heard_saveFuncPlan {stops : CallSite → Bool} (hstr : stops .str = true)
    (trueSignature : Bool) (fn : Function) (func : Option ElfPtr) (loc : Option Loc) :
    (saveFuncPlan trueSignature fn func loc).Heard stops := by
  rw [saveFuncPlan, heard_append]
  constructor
  · exact heard_flatMap fun _ _ => heard_callPlan.mpr hstr
  · rw [heard_set]
    exact heard_nil

/-- `btf_encoder__save_func` that succeeds appends the state that it filled in. -/
theorem client_saveFunc {fn : Function} {func : Option ElfPtr} {loc : Option Loc}
    {s s' : Btf Encoder} {r : ℤ} (hrun : saveFunc fn func loc s = .ok r s') (hr : 0 ≤ r) :
    s'.table.client =
      s.table.client.pushState (s.table.client.funcState s.table.client.tagType fn func loc) := by
  obtain ⟨hexec, -⟩ := (makes_saveFunc fn func loc s).done_of_nonneg hrun hr
  rw [(exec_done (heard_saveFuncPlan rfl _ fn func loc) hexec).1, saveFuncPlan, run_append,
    run_strings]
  rfl

/-- Where no string fails to be added, every function is saved. -/
theorem saveFunc_quietSession (fn : Function) (func : Option ElfPtr) (loc : Option Loc) :
    ∃ s', saveFunc fn func loc quietSession = .ok 0 s' := by
  have hcheck : ∀ ok, Step.check ok ∉
      saveFuncPlan quietSession.table.client.trueSignature fn func loc := by
    intro ok hmem
    rw [saveFuncPlan, List.mem_append, List.mem_flatMap] at hmem
    rcases hmem with ⟨_, -, hmem⟩ | hmem
    · cases List.mem_singleton.mp hmem
    · cases List.mem_singleton.mp hmem
  have hserves : quietSession.Serves 0 := ⟨fun _ _ => rfl, by decide⟩
  have hroom : ((saveFuncPlan quietSession.table.client.trueSignature fn func loc).run
      quietSession.table).cnt ≤ quietSession.table.cnt + 0 := by
    rw [saveFuncPlan, run_append, run_strings]
    exact le_refl _
  rcases (makes_saveFunc fn func loc quietSession).returns (heard_saveFuncPlan rfl _ fn func loc)
    with ⟨s', hrun, -⟩ | ⟨-, hstopped⟩
  · exact ⟨s', hrun⟩
  · exact absurd (exec_done_of_serves hcheck hserves hroom) hstopped

/-! ## Compared pairs -/

/-- `types__match` of two types returns true. -/
def PairMatches (find : ℕ → Option BtfType) (ids : ℕ × ℕ) : Prop :=
  ∃ fuel, typesMatch find fuel ids.1 ids.2 = .ok true

/-- `types__match` of two types returns false. -/
def PairDiffers (find : ℕ → Option BtfType) (ids : ℕ × ℕ) : Prop :=
  ∃ fuel, typesMatch find fuel ids.1 ids.2 = .ok false

/-- Some pair of the list differs, and the pairs before it match. -/
def FirstDiffers (find : ℕ → Option BtfType) (ids : List (ℕ × ℕ)) : Prop :=
  ∃ before differing behind, ids = before ++ differing :: behind ∧
    (∀ pair ∈ before, PairMatches find pair) ∧ PairDiffers find differing

section AllMatch

variable {find : ℕ → Option BtfType}

theorem typesMatch_mono {n m id1 id2 : ℕ} {r : Bool} (hle : n ≤ m)
    (h : typesMatch find n id1 id2 = .ok r) : typesMatch find m id1 id2 = .ok r := by
  rw [typesMatch_eq] at h ⊢
  exact typesMatchIn_mono hle h

theorem allMatch_true_iff {ids : List (ℕ × ℕ)} :
    (∃ fuel, allMatch (typesMatch find fuel) ids = .ok true) ↔
      ∀ pair ∈ ids, PairMatches find pair := by
  induction ids with
  | nil => exact ⟨fun _ _ h => absurd h List.not_mem_nil, fun _ => ⟨0, rfl⟩⟩
  | cons pair ids ih =>
      rw [List.forall_mem_cons, ← ih]
      constructor
      · rintro ⟨fuel, h⟩
        rw [allMatch] at h
        split at h
        · next hpair => exact ⟨⟨fuel, hpair⟩, fuel, h⟩
        · next hpair => exact absurd h hpair
      · rintro ⟨⟨n, hpair⟩, m, hrest⟩
        refine ⟨max n m, ?_⟩
        have hfirst := typesMatch_mono (le_max_left n m) hpair
        rw [allMatch, hfirst]
        exact allMatch_mono (fun _ _ _ => typesMatch_mono (le_max_right n m)) hrest

theorem firstDiffers_cons {pair : ℕ × ℕ} {ids : List (ℕ × ℕ)} :
    FirstDiffers find (pair :: ids) ↔
      PairDiffers find pair ∨ PairMatches find pair ∧ FirstDiffers find ids := by
  constructor
  · rintro ⟨before, differing, behind, hids, hbefore, hdiffers⟩
    cases before with
    | nil =>
        obtain ⟨rfl, -⟩ := List.cons.inj hids
        exact Or.inl hdiffers
    | cons first before =>
        obtain ⟨rfl, rfl⟩ := List.cons.inj hids
        rw [List.forall_mem_cons] at hbefore
        exact Or.inr ⟨hbefore.1, before, differing, behind, rfl, hbefore.2, hdiffers⟩
  · rintro (hdiffers | ⟨hfirst, before, differing, behind, rfl, hbefore, hdiffers⟩)
    · exact ⟨[], pair, ids, rfl, fun _ h => absurd h List.not_mem_nil, hdiffers⟩
    · exact ⟨pair :: before, differing, behind, rfl,
        List.forall_mem_cons.mpr ⟨hfirst, hbefore⟩, hdiffers⟩

theorem allMatch_false_iff {ids : List (ℕ × ℕ)} :
    (∃ fuel, allMatch (typesMatch find fuel) ids = .ok false) ↔ FirstDiffers find ids := by
  induction ids with
  | nil =>
      constructor
      · rintro ⟨fuel, h⟩
        cases h
      · rintro ⟨before, differing, behind, hids, -⟩
        exact absurd hids.symm (by simp)
  | cons pair ids ih =>
      rw [firstDiffers_cons, ← ih]
      constructor
      · rintro ⟨fuel, h⟩
        rw [allMatch] at h
        split at h
        · next hpair => exact Or.inr ⟨⟨fuel, hpair⟩, fuel, h⟩
        · exact Or.inl ⟨fuel, h⟩
      · rintro (⟨n, hpair⟩ | ⟨⟨n, hpair⟩, m, hrest⟩)
        · refine ⟨n, ?_⟩
          rw [allMatch, hpair]
        · refine ⟨max n m, ?_⟩
          have hfirst := typesMatch_mono (le_max_left n m) hpair
          rw [allMatch, hfirst]
          exact allMatch_mono (fun _ _ _ => typesMatch_mono (le_max_right n m)) hrest

end AllMatch

section FuncsMatch

variable (find : ℕ → Option BtfType) (s1 s2 : FuncState)

/-- The array of a state is as long as its count says. -/
def FuncState.HasRoom (state : FuncState) : Prop := state.nrParms ≤ state.parms.length

/-- The types that are compared of two states: what they return, then the parameters. -/
def FuncState.typePairs : List (ℕ × ℕ) :=
  (s1.retTypeId, s2.retTypeId) ::
    ((s1.parms.zip s2.parms).take s1.nrParms).map fun (p1, p2) => (p1.typeId, p2.typeId)

/-- Two states have as many parameters, and the types at equal places match. -/
structure SamePrototype : Prop where
  nrParms : s1.nrParms = s2.nrParms
  ret : PairMatches find (s1.retTypeId, s2.retTypeId)
  parms : ∀ i < s1.nrParms, ∃ p1 p2, s1.parms[i]? = some p1 ∧ s2.parms[i]? = some p2 ∧
    PairMatches find (p1.typeId, p2.typeId)

/-- `funcs__match` ends, and returns true only for states with the same prototype. -/
structure MatchesPrototypes : Prop where
  ends : ∃ fuel r, funcsMatch find fuel s1 s2 = .ok r
  sound : ∀ fuel, funcsMatch find fuel s1 s2 = .ok true → SamePrototype find s1 s2

/-- The counts differ, or one of the first 257 pairs differs, or all pairs match and there are
fewer than 256 parameters. -/
def SettledInTime : Prop :=
  s1.nrParms ≠ s2.nrParms ∨ FirstDiffers find ((s1.typePairs s2).take 257) ∨
    (s1.nrParms < 256 ∧ ∀ pair ∈ s1.typePairs s2, PairMatches find pair)

variable {find s1 s2}

/-- If all pairs of types of two states with as many parameters match, the states have the same
prototype. -/
theorem forall_mem_typePairs (hcount : s1.nrParms = s2.nrParms) (hroom1 : s1.HasRoom)
    (hroom2 : s2.HasRoom) (h : ∀ pair ∈ s1.typePairs s2, PairMatches find pair) :
    SamePrototype find s1 s2 := by
  obtain ⟨hret, hparms⟩ := List.forall_mem_cons.mp h
  refine ⟨hcount, hret, fun i hi => ?_⟩
  have hi1 : i < s1.parms.length := lt_of_lt_of_le hi hroom1
  have hi2 : i < s2.parms.length := lt_of_lt_of_le (hcount ▸ hi) hroom2
  refine ⟨s1.parms[i], s2.parms[i], List.getElem?_eq_getElem hi1,
    List.getElem?_eq_getElem hi2, hparms _ (List.mem_map.mpr ⟨(s1.parms[i], s2.parms[i]), ?_, rfl⟩)⟩
  apply List.mem_of_getElem?
  rw [List.getElem?_take_of_lt hi, List.getElem?_zip_eq_some]
  exact ⟨List.getElem?_eq_getElem hi1, List.getElem?_eq_getElem hi2⟩

theorem funcsMatch_of_ne (hcount : s1.nrParms ≠ s2.nrParms) (fuel : ℕ) :
    funcsMatch find fuel s1 s2 = .ok false := by
  rw [funcsMatch, if_pos hcount]

/-- The comparison of `count` parameters, from that of the pairs within reach of the index. -/
def settleMatch (count : ℕ) : Except Crash Bool → Except Crash Bool
  | .ok true => if count < 256 then .ok true else .error .diverge
  | out => out

theorem settleMatch_eq_true {count : ℕ} {out : Except Crash Bool} :
    settleMatch count out = .ok true ↔ count < 256 ∧ out = .ok true := by
  rcases out with crash | r
  · simp [settleMatch]
  · cases r <;> simp [settleMatch]

theorem settleMatch_eq_false {count : ℕ} {out : Except Crash Bool} :
    settleMatch count out = .ok false ↔ out = .ok false := by
  rcases out with crash | r
  · simp [settleMatch]
  · cases r with
    | false => simp [settleMatch]
    | true =>
        rw [settleMatch]
        split <;> simp

theorem funcsMatch_of_eq (hcount : s1.nrParms = s2.nrParms) (fuel : ℕ) :
    funcsMatch find fuel s1 s2 =
      settleMatch s1.nrParms
        (allMatch (typesMatch find fuel) ((s1.typePairs s2).take 257)) := by
  rw [funcsMatch, if_neg (not_not.mpr hcount), FuncState.typePairs, List.take_succ_cons]
  rfl

/-- With fewer than 256 parameters all pairs of types are compared. -/
theorem take_typePairs (hfew : s1.nrParms < 256) : (s1.typePairs s2).take 257 = s1.typePairs s2 := by
  apply List.take_of_length_le
  rw [FuncState.typePairs, List.length_cons, List.length_map]
  have hlen := List.length_take_le s1.nrParms (s1.parms.zip s2.parms)
  omega

/-- True is returned when all pairs match and there are not too many of them. -/
theorem funcsMatch_true_iff (hcount : s1.nrParms = s2.nrParms) :
    (∃ fuel, funcsMatch find fuel s1 s2 = .ok true) ↔
      s1.nrParms < 256 ∧ ∀ pair ∈ s1.typePairs s2, PairMatches find pair := by
  rw [← allMatch_true_iff]
  constructor
  · rintro ⟨fuel, h⟩
    rw [funcsMatch_of_eq hcount, settleMatch_eq_true] at h
    obtain ⟨hfew, hall⟩ := h
    rw [take_typePairs hfew] at hall
    exact ⟨hfew, fuel, hall⟩
  · rintro ⟨hfew, fuel, hall⟩
    refine ⟨fuel, ?_⟩
    rw [funcsMatch_of_eq hcount, settleMatch_eq_true, take_typePairs hfew]
    exact ⟨hfew, hall⟩

/-- False is returned when the first pair that does not match is within reach. -/
theorem funcsMatch_false_iff (hcount : s1.nrParms = s2.nrParms) :
    (∃ fuel, funcsMatch find fuel s1 s2 = .ok false) ↔
      FirstDiffers find ((s1.typePairs s2).take 257) := by
  rw [← allMatch_false_iff]
  refine exists_congr fun fuel => ?_
  rw [funcsMatch_of_eq hcount, settleMatch_eq_false]

theorem matchesPrototypes_iff (hroom1 : s1.HasRoom) (hroom2 : s2.HasRoom) :
    MatchesPrototypes find s1 s2 ↔ SettledInTime find s1 s2 := by
  by_cases hcount : s1.nrParms = s2.nrParms
  · have hsound : ∀ fuel, funcsMatch find fuel s1 s2 = .ok true → SamePrototype find s1 s2 := by
      intro fuel h
      exact forall_mem_typePairs hcount hroom1 hroom2
        ((funcsMatch_true_iff hcount).mp ⟨fuel, h⟩).2
    constructor
    · rintro ⟨⟨fuel, r, hr⟩, -⟩
      cases r with
      | true => exact Or.inr (Or.inr ((funcsMatch_true_iff hcount).mp ⟨fuel, hr⟩))
      | false => exact Or.inr (Or.inl ((funcsMatch_false_iff hcount).mp ⟨fuel, hr⟩))
    · rintro (hne | hdiffers | hall)
      · exact absurd hcount hne
      · obtain ⟨fuel, hfuel⟩ := (funcsMatch_false_iff hcount).mpr hdiffers
        exact ⟨⟨fuel, false, hfuel⟩, hsound⟩
      · obtain ⟨fuel, hfuel⟩ := (funcsMatch_true_iff hcount).mpr hall
        exact ⟨⟨fuel, true, hfuel⟩, hsound⟩
  · constructor
    · intro _
      exact Or.inl hcount
    · intro _
      refine ⟨⟨0, false, funcsMatch_of_ne hcount 0⟩, fun fuel h => ?_⟩
      rw [funcsMatch_of_ne hcount] at h
      cases h

theorem eq_of_mem_typePairs_self {pair : ℕ × ℕ} (h : pair ∈ s1.typePairs s1) :
    pair.1 = pair.2 := by
  rcases List.mem_cons.mp h with rfl | h
  · rfl
  · obtain ⟨⟨p1, p2⟩, hmem, rfl⟩ := List.mem_map.mp h
    obtain ⟨i, hi⟩ := List.mem_iff_getElem?.mp (List.mem_of_mem_take hmem)
    rw [List.getElem?_zip_eq_some] at hi
    have hsame : p1 = p2 := Option.some.inj (hi.1.symm.trans hi.2)
    exact congrArg FuncParm.typeId hsame

theorem typesMatch_self (fuel id : ℕ) : typesMatch find (fuel + 1) id id = .ok true :=
  if_pos rfl

theorem settledInTime_self (hfew : s1.nrParms < 256) : SettledInTime find s1 s1 := by
  refine Or.inr (Or.inr ⟨hfew, fun pair hpair => ⟨1, ?_⟩⟩)
  rw [eq_of_mem_typePairs_self hpair]
  exact typesMatch_self 0 _

/-- The comparison of a state with itself does not end when it has 256 parameters or more. -/
theorem not_settledInTime_self (hmany : 256 ≤ s1.nrParms) : ¬SettledInTime find s1 s1 := by
  rintro (hne | ⟨before, differing, behind, hids, -, fuel, hdiffers⟩ | ⟨hfew, -⟩)
  · exact hne rfl
  · have hmem : differing ∈ s1.typePairs s1 := by
      apply List.mem_of_mem_take
      rw [hids]
      exact List.mem_append_right _ List.mem_cons_self
    rw [eq_of_mem_typePairs_self hmem] at hdiffers
    cases fuel with
    | zero => cases hdiffers
    | succ fuel =>
        rw [typesMatch_self] at hdiffers
        cases hdiffers
  · omega

/-- The state that `btf_encoder__save_func` fills in has room for its parameters. -/
theorem hasRoom_funcState (enc : Encoder) (ref : TypeId → ℕ) (fn : Function)
    (func : Option ElfPtr) (loc : Option Loc) : (enc.funcState ref fn func loc).HasRoom := by
  have hlen : (enc.funcState ref fn func loc).parms.length =
      fn.proto.parms.length + fn.proto.unspecParms.toNat := by
    change (fn.proto.stateParms ref enc.trueSignature loc.isSome).length = _
    unfold Ftype.stateParms
    split <;> simp
  rw [FuncState.HasRoom, hlen]
  exact Nat.add_le_add_right (length_savedParms_le _ _ _) _

end FuncsMatch

/-! ## Saving and comparing -/

section Saved

variable {fn : Function} {func : Option ElfPtr} {loc : Option Loc} {s s' : Btf Encoder} {r : ℤ}
  {s1 s2 : FuncState}

/-- A function is saved with its prototype if and only if `NoneOverwritten` holds of the
parameters kept, and `funcs__match` ends and is sound on two saved states if and only if the
comparison is settled before its index of eight bits wraps. -/
theorem savedPrototypes_iff (find : ℕ → Option BtfType)
    (hparms : fn.proto.parms.length < 65535)
    (hrun : saveFunc fn func loc s = .ok r s') (hr : 0 ≤ r)
    (hroom1 : s1.HasRoom) (hroom2 : s2.HasRoom) :
    ((∃ state, s'.table.client = s.table.client.pushState state ∧
        state.HasPrototype (s.table.client.keptParms fn loc) fn.proto.unspecParms) ↔
      NoneOverwritten (s.table.client.keptParms fn loc) fn.proto.unspecParms) ∧
    (MatchesPrototypes find s1 s2 ↔ SettledInTime find s1 s2) := by
  refine ⟨?_, matchesPrototypes_iff hroom1 hroom2⟩
  have hclient := client_saveFunc hrun hr
  rw [← hasPrototype_funcState_iff func hparms]
  constructor
  · rintro ⟨state, hpush, hstate⟩
    obtain rfl := pushState_inj (hpush.symm.trans hclient)
    exact hstate
  · intro hstate
    exact ⟨_, hclient, hstate⟩

end Saved

/-! ## A function with many parameters -/

/-- A parameter of the type 1. -/
def Parameter.named (name : String) : Parameter where
  name := some name
  type := 1
  trueSigMemberName := none
  idx := 0
  hasLoc := true
  optimized := false
  locReg := 0
  locReg2 := 0
  locOffset := 0
  locValue := 0
  locSize := 0
  hasConstValue := false
  locConstValue := false
  locStack := false
  locDeref := false
  locAddr := false
  locSigned := false

/-- A function without a result whose parameters are all called `p`. -/
def functionOfParms (n : ℕ) : Function where
  proto :=
    { type := 0
      parms := List.replicate n (Parameter.named "p")
      byteSize := 0
      unspecParms := false
      optimizedParms := false
      unexpectedReg := false
      inconsistentProto := false
      uncertainParmLoc := false
      reorderedParm := false
      signatureChanged := false }
  name := some "f"
  addr := 0
  declaration := false
  external := true
  annots := []

theorem keptParms_functionOfParms (n : ℕ) :
    Encoder.plain.keptParms (functionOfParms n) none = List.replicate n ⟨"p", 1⟩ := by
  have hsaved : (functionOfParms n).proto.savedParms Encoder.plain.trueSignature
      (none : Option Loc).isSome = List.replicate n (Parameter.named "p") :=
    List.filter_replicate_of_pos rfl
  rw [Encoder.keptParms, hsaved, List.map_replicate]
  rfl

theorem nrParms_functionOfParms (n : ℕ) :
    (Encoder.plain.funcState Encoder.plain.tagType (functionOfParms n) none none).nrParms = n := by
  have hlen := congrArg List.length (keptParms_functionOfParms n)
  rw [Encoder.keptParms, List.length_map, List.length_replicate] at hlen
  exact hlen

theorem not_noneOverwritten_functionOfParms :
    ¬NoneOverwritten (Encoder.plain.keptParms (functionOfParms 257) none) false := by
  rintro ⟨hfar, -⟩
  rw [keptParms_functionOfParms] at hfar
  have hzero := (hfar 256 ⟨"p", 1⟩ (le_refl _)
    (List.getElem?_replicate_of_lt (by decide))).1
  exact absurd (congrArg FuncParm.typeId hzero) (by decide)

/-- Of 257 parameters the first is lost, and a state with 256 of them cannot be compared
with itself. -/
theorem not_savedPrototypes_manyParms :
    (∃ s', saveFunc (functionOfParms 257) none none quietSession = .ok 0 s' ∧
      ¬∃ state, s'.table.client = Encoder.plain.pushState state ∧
        state.HasPrototype (Encoder.plain.keptParms (functionOfParms 257) none) false) ∧
    ∀ find, ¬MatchesPrototypes find
      (Encoder.plain.funcState Encoder.plain.tagType (functionOfParms 256) none none)
      (Encoder.plain.funcState Encoder.plain.tagType (functionOfParms 256) none none) := by
  constructor
  · obtain ⟨s', hrun⟩ := saveFunc_quietSession (functionOfParms 257) none none
    refine ⟨s', hrun, ?_⟩
    rintro ⟨state, hpush, hstate⟩
    have hclient := client_saveFunc hrun (le_refl 0)
    obtain rfl := pushState_inj (hpush.symm.trans hclient)
    have hparms : (functionOfParms 257).proto.parms.length < 65535 := by
      rw [functionOfParms, List.length_replicate]
      decide
    exact not_noneOverwritten_functionOfParms
      ((hasPrototype_funcState_iff none hparms).mp hstate)
  · intro find h
    have hroom := hasRoom_funcState Encoder.plain Encoder.plain.tagType (functionOfParms 256)
      none none
    have hmany := (nrParms_functionOfParms 256).ge
    exact not_settledInTime_self hmany ((matchesPrototypes_iff hroom hroom).mp h)

/-- A function with the parameters, and more that are not named. -/
def variadicFunction (parms : List String) : Function :=
  { functionOfParms 0 with
    proto :=
      { (functionOfParms 0).proto with
        parms := parms.map Parameter.named
        unspecParms := true } }

/-- A function with three parameters and more is saved with an entry for each and one for the
rest; its state matches itself, and is told apart from that of a function with two parameters. -/
theorem savedPrototypes_iff_variadic :
    let fn := variadicFunction ["fmt", "size", "flags"]
    let other := variadicFunction ["fmt", "size"]
    let stateOf := fun fn => Encoder.plain.funcState Encoder.plain.tagType fn none none
    ∃ s', saveFunc fn none none quietSession = .ok 0 s' ∧
      (∃ state, s'.table.client = Encoder.plain.pushState state ∧
        state.HasPrototype [⟨"fmt", 1⟩, ⟨"size", 1⟩, ⟨"flags", 1⟩] true) ∧
      MatchesPrototypes (fun _ => none) (stateOf fn) (stateOf fn) ∧
      MatchesPrototypes (fun _ => none) (stateOf fn) (stateOf other) := by
  intro fn other stateOf
  obtain ⟨s', hrun⟩ := saveFunc_quietSession fn none none
  have hroom : ∀ fn, (stateOf fn).HasRoom := fun fn =>
    hasRoom_funcState Encoder.plain Encoder.plain.tagType fn none none
  have hself := savedPrototypes_iff (fun _ => none) (by decide) hrun (le_refl 0) (hroom fn)
    (hroom fn)
  have hother := savedPrototypes_iff (fun _ => none) (by decide) hrun (le_refl 0) (hroom fn)
    (hroom other)
  exact ⟨s', hrun, hself.1.mpr (noneOverwritten_of_le (by decide)),
    hself.2.mpr (settledInTime_self (by decide)), hother.2.mpr (Or.inl (by decide))⟩

end Pahole

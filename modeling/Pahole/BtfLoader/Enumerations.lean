import Pahole.BtfEncoder.EncodeTag
import Pahole.BtfLoader.LoadTypes

/-!
# Enumerators in BTF

An enumeration of at most four bytes is encoded as an `ENUM`, of which the loader
extends the 32-bit values by their sign or by zeros, and a larger one as an `ENUM64`,
of which it puts the halves together.  Either way the values are those of before.
-/

namespace Pahole

open FallibleTable

/-- The enumeration has 8, 16, 32 or 64 bits, and each value fits them, signed or unsigned as
the enumeration is. -/
structure Enumeration.Representable (etype : Enumeration) : Prop where
  size : etype.size = 8 ∨ etype.size = 16 ∨ etype.size = 32 ∨ etype.size = 64
  value : ∀ e ∈ etype.values, e.value < 18446744073709551616
  signed : etype.isSigned = true → ∀ e ∈ etype.values,
    -2 ^ (etype.size - 1) ≤ i64 e.value ∧ i64 e.value < 2 ^ (etype.size - 1)
  unsigned : etype.isSigned = false → ∀ e ∈ etype.values, e.value < 2 ^ etype.size

theorem u64_i64 {x : ℕ} (h : x < 18446744073709551616) : u64 (i64 x) = x := by
  unfold u64 i64
  rw [Int.bmod_def]
  split <;> omega

theorem i64_of_lt {x : ℕ} (h : x < 9223372036854775808) : i64 x = x := by
  unfold i64
  rw [Int.bmod_def]
  split <;> omega

theorem btfEnum64Value_i64 {x : ℕ} (h : x < 18446744073709551616) :
    btfEnum64Value (i64 x) = x := by
  have hx : u64 (i64 x) = x := u64_i64 h
  simp only [btfEnum64Value, u32]
  unfold u64 at hx
  omega

theorem btfEnumVal_of_fits {v : ℤ} (hlow : -2147483648 ≤ v) (hhigh : v < 2147483648) :
    btfEnumVal v = v := by
  unfold btfEnumVal
  rw [Int.bmod_def]
  split <;> omega

theorem u32_btfEnumVal (v : ℤ) : u32 (btfEnumVal v) = u32 v := by
  unfold u32 btfEnumVal
  rw [Int.bmod_def]
  split <;> omega

theorem btfEnumKflag_map (g : ℕ → ℤ) (values : List Enumerator) :
    btfEnumKflag (values.map fun e => (e.name, g e.value)) = true ↔
      ∃ e ∈ values, g e.value < 0 := by
  simp [btfEnumKflag]

/-- Filling in an `ENUM` appends its values. -/
theorem built_enum (g : ℕ → ℤ) (name : Option String) (size : ℕ)
    (start : List (String × ℤ)) (values : List Enumerator) :
    built (.enum name size start)
        (fun e => BtfType.addEnumValue e.name (g e.value)) values =
      .enum name size (start ++ values.map fun e => (e.name, g e.value)) := by
  induction values generalizing start with
  | nil => simp [built]
  | cons e values ih =>
      have hrest := ih (start ++ [(e.name, g e.value)])
      simpa [built, BtfType.addEnumValue] using hrest

/-- Filling in an `ENUM64` appends its values. -/
theorem built_enum64 (g : ℕ → ℤ) (name : Option String) (size : ℕ) (isSigned : Bool)
    (start : List (String × ℤ)) (values : List Enumerator) :
    built (.enum64 name size isSigned start)
        (fun e => BtfType.addEnumValue e.name (g e.value)) values =
      .enum64 name size isSigned
        (start ++ values.map fun e => (e.name, g e.value)) := by
  induction values generalizing start with
  | nil => simp [built]
  | cons e values ih =>
      have hrest := ih (start ++ [(e.name, g e.value)])
      simpa [built, BtfType.addEnumValue] using hrest

section RoundTrip

variable {etype : Enumeration} {e : Enumerator}

theorem isEnumerator_of_mem (h : e ∈ etype.values) : e.isEnumerator = true :=
  (List.mem_filter.mp h).2

/-- A representable value of at most 32 bits is read back from an `ENUM` unchanged. -/
theorem value_of_enum (hrep : etype.Representable) (hsize : etype.size ≤ 32)
    {kflag : Bool} (hkflag : i64 e.value < 0 → kflag = true) (hnone : kflag = true →
      ∃ e' ∈ etype.values, i64 e'.value < 0) (he : e ∈ etype.values) :
    (if kflag then u64 (btfEnumVal (i64 e.value)) else u32 (btfEnumVal (i64 e.value))) =
      e.value := by
  have hlt := hrep.value e he
  have hpow : (2 : ℤ) ^ (etype.size - 1) ≤ 2147483648 := by
    have hexp : etype.size - 1 ≤ 31 := by omega
    calc (2 : ℤ) ^ (etype.size - 1) ≤ 2 ^ 31 := pow_le_pow_right₀ (by norm_num) hexp
      _ = 2147483648 := by norm_num
  have hpow' : 2 ^ etype.size ≤ 4294967296 := by
    calc 2 ^ etype.size ≤ 2 ^ 32 := Nat.pow_le_pow_right (by norm_num) hsize
      _ = 4294967296 := by norm_num
  cases hsigned : etype.isSigned with
  | true =>
      obtain ⟨hlow, hhigh⟩ := hrep.signed hsigned e he
      rw [btfEnumVal_of_fits (by omega) (by omega)]
      cases kflag with
      | true =>
          rw [if_pos rfl]
          exact u64_i64 hlt
      | false =>
          have hpos : 0 ≤ i64 e.value := by
            by_contra hneg
            exact Bool.false_ne_true (hkflag (by omega))
          have hx := u64_i64 hlt
          simp only [Bool.false_eq_true, if_false]
          unfold u64 at hx
          unfold u32
          omega
  | false =>
      have hall : ∀ e' ∈ etype.values, i64 e'.value = e'.value := by
        intro e' he'
        have := hrep.unsigned hsigned e' he'
        exact i64_of_lt (by omega)
      have hkind : kflag = false := by
        by_contra hk
        obtain ⟨e', he', hneg⟩ := hnone (by simpa using hk)
        rw [hall e' he'] at hneg
        omega
      have hsmall := hrep.unsigned hsigned e he
      rw [hkind, if_neg Bool.false_ne_true, u32_btfEnumVal, hall e he]
      exact u32_of_lt (by omega)

end RoundTrip

/-- If `f` restores each value from what `g` wrote, it restores the list of values. -/
theorem map_values {etype : Enumeration} {f : String × ℤ → Enumerator} {g : ℕ → ℤ}
    (hf : ∀ e ∈ etype.values, f (e.name, g e.value) = ⟨true, e.name, e.value⟩) :
    (etype.values.map fun e => (e.name, g e.value)).map f = etype.values := by
  rw [List.map_map]
  conv_rhs => rw [← List.map_id etype.values]
  apply List.map_congr_left
  intro e he
  rw [Function.comp, hf e he, ← isEnumerator_of_mem he, id]

/-- Of at most 65535 values `btf_vlen` reads all. -/
theorem take_btfVlen {α : Type} {values : List α} (h : values.length ≤ 65535) :
    values.take (btfVlen values.length) = values := by
  apply List.take_of_length_le
  rw [btfVlen, Nat.mod_eq_of_lt (by omega)]

/-- Reading an `ENUM` gives back the enumerators. -/
theorem createNewEnumeration_values {etype : Enumeration} (hrep : etype.Representable)
    (hsize : etype.size ≤ 32) (hlen : etype.values.length ≤ 65535) (cu : LoadedCu)
    (name : Option String) (size id : ℕ) :
    ∃ ty, createNewEnumeration cu name size
        (etype.values.map fun e => (e.name, i64 e.value)) id = cu.addType (.enumeration ty) id ∧
      ty.enumerators = etype.values := by
  refine ⟨_, rfl, ?_⟩
  have hlen' : (etype.values.map fun e => (e.name, i64 e.value)).length ≤ 65535 := by
    rwa [List.length_map]
  simp only [take_btfVlen hlen']
  apply map_values
  intro e he
  have hflag := btfEnumKflag_map i64 etype.values
  rw [value_of_enum hrep hsize (fun hneg => hflag.mpr ⟨e, he, hneg⟩) hflag.mp he]

/-- Reading an `ENUM64` gives back the enumerators. -/
theorem createNewEnumeration64_values {etype : Enumeration} (hrep : etype.Representable)
    (hlen : etype.values.length ≤ 65535) (cu : LoadedCu) (name : Option String) (size : ℕ)
    (isSigned : Bool) (id : ℕ) :
    ∃ ty, createNewEnumeration64 cu name size isSigned
        (etype.values.map fun e => (e.name, i64 e.value)) id = cu.addType (.enumeration ty) id ∧
      ty.enumerators = etype.values := by
  refine ⟨_, rfl, ?_⟩
  have hlen' : (etype.values.map fun e => (e.name, i64 e.value)).length ≤ 65535 := by
    rwa [List.length_map]
  simp only [take_btfVlen hlen']
  apply map_values
  intro e he
  rw [btfEnum64Value_i64 (hrep.value e he)]

/-- Reading the encoded enumeration gives back the enumerators. -/
theorem createNew_enumeration {etype : Enumeration} {conf : ConfLoad}
    (hconf : conf.skipEncodingBtfEnum64 = false) (hrep : etype.Representable)
    (hlen : etype.values.length ≤ 65535) (cu : LoadedCu) (id : ℕ) :
    ∃ ty, createNew cu id (built (etype.btfStart conf)
        (fun e => BtfType.addEnumValue e.name (enumValue e.value conf)) etype.values) =
          cu.addType (.enumeration ty) id ∧ ty.enumerators = etype.values := by
  have hvalue : ∀ value, enumValue value conf = i64 value := by
    intro value
    rw [enumValue, hconf, if_neg Bool.false_ne_true]
  simp only [hvalue, Enumeration.btfStart]
  split
  · rename_i hsmall
    have hsize : etype.size ≤ 32 := by
      rcases hsmall with hle | hskip
      · simp only [bitsRoundupBytes] at hle
        rcases hrep.size with h | h | h | h <;> rw [h] at hle ⊢ <;> simp at hle ⊢
      · rw [hconf] at hskip
        exact absurd hskip Bool.false_ne_true
    rw [built_enum i64, List.nil_append]
    exact createNewEnumeration_values hrep hsize hlen cu _ _ id
  · rw [built_enum64 i64, List.nil_append]
    exact createNewEnumeration64_values hrep hlen cu _ _ _ id

/-- Encoding an enumeration and loading the BTF, with any types before and after it, makes an
enumeration with the same enumerators and values. -/
theorem enumerators_roundTrip (conf : ConfLoad) (hconf : conf.skipEncodingBtfEnum64 = false)
    (etype : Enumeration) (hrep : etype.Representable) (hlen : etype.values.length ≤ 65535)
    (s : Btf Encoder) :
    ∃ id s', encodeTag conf (.enumeration etype) s = .ok id s' ∧
      (s.Serves 1 → 0 < id) ∧
      (0 ≤ id → ∀ before after, before.length = s.table.base →
        LoadsTo (before ++ s'.table.items ++ after) id.toNat fun tag =>
          ∃ ty, tag = .enumeration ty ∧ ty.enumerators = etype.values) := by
  obtain ⟨id, s', hrun, hserves, hok⟩ :=
    encodeTag_returns conf (.enumeration etype) rfl s
  have hid : 0 ≤ id → id = s.table.base + s.table.items.length + 1 := by
    intro hpos
    obtain ⟨hlast, -, htable⟩ := hok hpos
    rw [hlast, lastId, htable, Tag.cnt_run_plan s.table rfl]
    simp only [Table.cnt, Tag.nrBtfIds]
    omega
  refine ⟨id, s', hrun, fun hs => ?_, fun hpos before after hbefore => ?_⟩
  · have := hid (hserves hs)
    omega
  · obtain ⟨-, -, htable⟩ := hok hpos
    have hitems : s'.table.items = s.table.items ++ _ :=
      congrArg Table.items (htable.trans (Tag.run_plan s.table (by simp [Tag.isArray])))
    simp only [Tag.btfTypes] at hitems
    obtain ⟨ty, hnew, henumerators⟩ := createNew_enumeration hconf hrep hlen
      (loadedTypes (before ++ s.table.items)) ((before ++ s.table.items).length + 1)
    have hentry := (loadedTypes_entry (before ++ s.table.items) after
      (built (etype.btfStart conf)
        (fun e => BtfType.addEnumValue e.name (enumValue e.value conf)) etype.values)).1
    rw [hnew] at hentry
    have hplace : id.toNat = (before ++ s.table.items).length + 1 := by
      rw [hid hpos, List.length_append, hbefore]
      omega
    have htypes : before ++ s'.table.items ++ after = before ++ s.table.items ++
        built (etype.btfStart conf)
          (fun e => BtfType.addEnumValue e.name (enumValue e.value conf)) etype.values ::
          after := by
      rw [hitems]
      simp
    rw [hplace, htypes]
    refine loadsTo_of_entry (hentry.trans ?_) ⟨ty, rfl, henumerators⟩
    exact PtrTable.entry_addWithId_self _ _ _

/-- A signed enumeration with the least and the greatest of its values. -/
def signedEnumeration : Enumeration where
  name := some "e"
  type := 0
  size := 32
  isSigned := true
  enumerators := [⟨true, "low", 18446744071562067968⟩, ⟨true, "high", 2147483647⟩]

theorem representable_signedEnumeration : signedEnumeration.Representable where
  size := by decide
  value := by decide
  signed := by decide
  unsigned := by decide

theorem enumerators_roundTrip_signedEnumeration :
    ∃ id s', encodeTag ⟨false, false, false⟩ (.enumeration signedEnumeration) quietSession =
        .ok id s' ∧ 0 < id ∧
      LoadsTo s'.table.items id.toNat fun tag =>
        ∃ ty, tag = .enumeration ty ∧ ty.enumerators = signedEnumeration.values := by
  obtain ⟨id, s', hrun, hserves, hloads⟩ := enumerators_roundTrip ⟨false, false, false⟩ rfl
    signedEnumeration representable_signedEnumeration (by decide) quietSession
  have hpos : 0 < id := hserves ⟨fun _ _ => rfl, by decide⟩
  have hloaded := hloads hpos.le [] [] rfl
  rw [List.nil_append, List.append_nil] at hloaded
  exact ⟨id, s', hrun, hpos, hloaded⟩

end Pahole

import Mathlib.Tactic

/-!
# Signed numbers of some bits

Numbers of `bits` bits read as signed ones, extended to 64 bits, and bit fields taken
out of them.
-/

namespace SignedBits

/-- A number of `bits` bits as a signed one. -/
def signed (bits v : ℕ) : ℤ :=
  if v < 2 ^ (bits - 1) then v else (v : ℤ) - 2 ^ bits

/-- A number as 64 bits. -/
def word (x : ℤ) : ℕ := (x % 2 ^ 64).toNat

variable {bits v : ℕ}

theorem word_lt {x : ℤ} : word x < 2 ^ 64 := by
  unfold word
  omega

theorem two_pow_pred (h : 0 < bits) : 2 ^ bits = 2 * 2 ^ (bits - 1) := by
  rw [← pow_succ', Nat.sub_add_cancel h]

theorem signed_of_lt (h : v < 2 ^ (bits - 1)) : signed bits v = v := if_pos h

theorem signed_of_le (h : 2 ^ (bits - 1) ≤ v) : signed bits v = (v : ℤ) - 2 ^ bits :=
  if_neg (not_lt.mpr h)

theorem signed_eq_self_iff : signed bits v = v ↔ v < 2 ^ (bits - 1) := by
  have hpos : (0 : ℤ) < 2 ^ bits := by positivity
  constructor
  · intro h
    by_contra hle
    rw [signed_of_le (not_lt.mp hle)] at h
    omega
  · exact signed_of_lt

/-- A signed number that is not negative is the number itself. -/
theorem signed_eq_natCast_iff {n : ℕ} (hv : v < 2 ^ bits) :
    signed bits v = n ↔ v < 2 ^ (bits - 1) ∧ v = n := by
  rcases lt_or_ge v (2 ^ (bits - 1)) with hlt | hle
  · rw [signed_of_lt hlt, Int.natCast_inj]
    exact (and_iff_right hlt).symm
  · rw [signed_of_le hle]
    have hcast : (v : ℤ) < 2 ^ bits := by exact_mod_cast hv
    constructor
    · intro h
      omega
    · exact fun h => absurd h.1 (not_lt.mpr hle)

/-- A number of `width` bits, extended by its sign to `bits` bits. -/
def extend (width bits f : ℕ) : ℕ :=
  if f < 2 ^ (width - 1) then f else f + (2 ^ bits - 2 ^ width)

/-- Two signed readings agree if the wider number is the narrower one, extended. -/
theorem signed_eq_signed_iff {width f : ℕ} (hwidth : 0 < width) (hle : width ≤ bits)
    (hv : v < 2 ^ bits) (hf : f < 2 ^ width) :
    signed bits v = signed width f ↔ v = extend width bits f := by
  have hhalves : 2 ^ (width - 1) ≤ 2 ^ (bits - 1) :=
    Nat.pow_le_pow_right (by norm_num) (by omega)
  have hpow : 2 ^ width ≤ 2 ^ bits := Nat.pow_le_pow_right (by norm_num) hle
  have htwo := two_pow_pred hwidth
  have htwo' := two_pow_pred (lt_of_lt_of_le hwidth hle)
  unfold extend
  by_cases hlt : f < 2 ^ (width - 1)
  · rw [if_pos hlt, signed_of_lt hlt, signed_eq_natCast_iff hv]
    constructor
    · exact fun h => h.2
    · rintro rfl
      exact ⟨lt_of_lt_of_le hlt hhalves, rfl⟩
  · rw [if_neg hlt, signed_of_le (not_lt.mp hlt)]
    have hcast : (2 : ℤ) ^ bits = ((2 ^ bits : ℕ) : ℤ) := by norm_cast
    have hcast' : (2 : ℤ) ^ width = ((2 ^ width : ℕ) : ℤ) := by norm_cast
    rcases lt_or_ge v (2 ^ (bits - 1)) with hv' | hv'
    · rw [signed_of_lt hv', hcast']
      omega
    · rw [signed_of_le hv', hcast, hcast']
      omega

theorem signed_bounds (hbits : 0 < bits) (hle : bits ≤ 64) (hv : v < 2 ^ bits) :
    -2 ^ 63 ≤ signed bits v ∧ signed bits v < 2 ^ 63 := by
  have hhalf : 2 ^ (bits - 1) ≤ 2 ^ 63 := Nat.pow_le_pow_right (by norm_num) (by omega)
  have htwo := two_pow_pred hbits
  have hcast : (2 : ℤ) ^ bits = ((2 ^ bits : ℕ) : ℤ) := by norm_cast
  rcases lt_or_ge v (2 ^ (bits - 1)) with hlt | hge
  · rw [signed_of_lt hlt]
    omega
  · rw [signed_of_le hge, hcast]
    omega

/-- Sign extension keeps the lower `bits` bits. -/
theorem word_signed_mod (hle : bits ≤ 64) (hv : v < 2 ^ bits) :
    word (signed bits v) % 2 ^ bits = v := by
  have hdvd : (2 : ℤ) ^ bits ∣ 2 ^ 64 := pow_dvd_pow 2 hle
  have hnonneg : 0 ≤ signed bits v % 2 ^ 64 := Int.emod_nonneg _ (by positivity)
  have hsigned : signed bits v % 2 ^ bits = v := by
    have hself : (v : ℤ) % 2 ^ bits = v :=
      Int.emod_eq_of_lt (Int.natCast_nonneg v) (by exact_mod_cast hv)
    rcases lt_or_ge v (2 ^ (bits - 1)) with hlt | hge
    · rw [signed_of_lt hlt, hself]
    · rw [signed_of_le hge, Int.sub_emod_right, hself]
  have hcast : ((word (signed bits v) % 2 ^ bits : ℕ) : ℤ) = v := by
    rw [word, Int.natCast_mod, Int.toNat_of_nonneg hnonneg, Nat.cast_pow, Nat.cast_ofNat,
      Int.emod_emod_of_dvd _ hdvd, hsigned]
  exact_mod_cast hcast

/-- A bit field of a number depends on the bits up to its end. -/
theorem field_mod {x offset width : ℕ} (hfits : offset + width ≤ bits) :
    x % 2 ^ bits / 2 ^ offset % 2 ^ width = x / 2 ^ offset % 2 ^ width := by
  rw [← Nat.mod_mul_right_div_self, ← Nat.mod_mul_right_div_self, ← pow_add,
    Nat.mod_mod_of_dvd _ (pow_dvd_pow 2 hfits)]

/-- A bit field of the extended number is one of the number. -/
theorem field_word_signed {offset width : ℕ} (hle : bits ≤ 64) (hv : v < 2 ^ bits)
    (hfits : offset + width ≤ bits) :
    word (signed bits v) / 2 ^ offset % 2 ^ width = v / 2 ^ offset % 2 ^ width := by
  rw [← field_mod hfits, word_signed_mod hle hv]

theorem word_eq_word_iff {x y : ℤ} (hx : -2 ^ 63 ≤ x ∧ x < 2 ^ 63) (hy : -2 ^ 63 ≤ y ∧ y < 2 ^ 63) :
    word x = word y ↔ x = y := by
  unfold word
  constructor
  · intro h
    omega
  · exact fun h => h ▸ rfl

theorem word_signed_self (hv : v < 2 ^ 64) : word (signed 64 v) = v := by
  have hmod : word (signed 64 v) % 2 ^ 64 = v := word_signed_mod (le_refl _) hv
  rwa [Nat.mod_eq_of_lt word_lt] at hmod

theorem signed_word {x : ℤ} (hx : -2 ^ 63 ≤ x ∧ x < 2 ^ 63) : signed 64 (word x) = x := by
  have hbounds : -2 ^ 63 ≤ signed 64 (word x) ∧ signed 64 (word x) < 2 ^ 63 :=
    signed_bounds (by norm_num) (le_refl _) word_lt
  exact (word_eq_word_iff hbounds hx).mp (word_signed_self word_lt)

end SignedBits

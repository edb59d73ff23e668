import Mathlib.Data.UInt
import Mathlib.Logic.Function.Basic
import Mathlib.Tactic.Common

/-!
# Hash tables of DWARF tags

The tables by which the loader finds the tag of a DWARF offset.  How many bits of a
hash are used is a matter of the loader and not of the table.
-/

namespace Pahole

abbrev DwarfOff := UInt64

/-- `struct dwarf_tag`: where it is and its offset.  A DIE comes after the header of its
unit, so its offset is never zero. -/
structure DwarfTag where
  addr : ℕ
  id : DwarfOff
  id_ne_zero : id ≠ 0
  deriving DecidableEq

def hash64 (val : UInt64) (bits : ℕ) : UInt64 :=
  (val * 11400714819323198485) >>> UInt64.ofNat (64 - bits)

/-- `hashtags__fn`, under that many hash bits. -/
def hashtagsFn (bits : ℕ) (key : DwarfOff) : ℕ := (hash64 key bits).toUInt32.toNat

/-- An array of `struct hlist_head`, and the number of hash bits it was allocated for. -/
structure HashTable where
  bits : ℕ
  bucket : ℕ → List DwarfTag

namespace HashTable

def nrBuckets (table : HashTable) : ℕ := 2 ^ table.bits

/-- A table as `dwarf_cu__init` allocates it. -/
def init (bits : ℕ) : HashTable := ⟨bits, fun _ => []⟩

/-- `hashtags__hash`.  There is no result when the bucket is outside the table. -/
def hash (bits : ℕ) (table : HashTable) (dtag : DwarfTag) : Option HashTable :=
  let i := hashtagsFn bits dtag.id
  if i < table.nrBuckets then
    some { table with bucket := Function.update table.bucket i (dtag :: table.bucket i) }
  else none

/-- The search of `hashtags__find` in the bucket, wherever that is. -/
def find (bits : ℕ) (table : HashTable) (id : DwarfOff) : Option DwarfTag :=
  if id = 0 then none
  else (table.bucket (hashtagsFn bits id)).find? fun tpos => tpos.id = id

/-- The loop of `dwarf_cu__prune_unreferenced_alt_pus` over a table. -/
def prune (bits : ℕ) (table : HashTable) (hit : DwarfOff → Bool) : HashTable :=
  { table with bucket := fun i =>
      if i < 2 ^ bits then (table.bucket i).filter fun dtag => hit dtag.id
      else table.bucket i }

/-- The table holds the tags, the newest first in each bucket. -/
structure Holds (table : HashTable) (tags : List DwarfTag) : Prop where
  pos : 0 < table.bits
  lt : table.bits < 32
  bucket : ∀ i, table.bucket i = tags.filter fun dtag => hashtagsFn table.bits dtag.id = i

end HashTable

theorem hashtagsFn_lt {bits : ℕ} (hpos : 0 < bits) (hbits : bits < 32) (key : DwarfOff) :
    hashtagsFn bits key < 2 ^ bits := by
  have hshift : (UInt64.ofNat (64 - bits)).toNat = 64 - bits := by
    rw [UInt64.toNat_ofNat']
    exact Nat.mod_eq_of_lt (by omega)
  unfold hashtagsFn hash64
  rw [UInt64.toNat_toUInt32, UInt64.toNat_shiftRight, hshift,
    Nat.mod_eq_of_lt (show 64 - bits < 64 by omega), Nat.shiftRight_eq_div_pow]
  have hlt := UInt64.toNat_lt (key * 11400714819323198485)
  have hpow : 2 ^ bits * 2 ^ (64 - bits) = 2 ^ 64 := by
    rw [← pow_add]
    congr 1
    omega
  refine lt_of_le_of_lt (Nat.mod_le _ _) ?_
  rw [Nat.div_lt_iff_lt_mul (Nat.two_pow_pos _), hpow]
  exact hlt

namespace HashTable

variable {table : HashTable} {tags : List DwarfTag}

theorem holds_init {bits : ℕ} (hpos : 0 < bits) (hlt : bits < 32) : (init bits).Holds [] where
  pos := hpos
  lt := hlt
  bucket := fun _ => rfl

theorem Holds.inBounds (h : table.Holds tags) (id : DwarfOff) :
    hashtagsFn table.bits id < table.nrBuckets :=
  hashtagsFn_lt h.pos h.lt id

/-- Hashing under the bits of the table is hashing into the table. -/
theorem Holds.hash (h : table.Holds tags) (dtag : DwarfTag) :
    ∃ table', table.hash table.bits dtag = some table' ∧ table'.bits = table.bits ∧
      table'.Holds (dtag :: tags) := by
  refine ⟨_, if_pos (h.inBounds dtag.id), rfl, h.pos, h.lt, fun i => ?_⟩
  by_cases hi : i = hashtagsFn table.bits dtag.id
  · subst hi
    simp [h.bucket]
  · simp [Function.update_of_ne hi, h.bucket, Ne.symm hi]

/-- A lookup under the bits of the table finds what was hashed. -/
theorem Holds.find (h : table.Holds tags) (id : DwarfOff) :
    table.find table.bits id = tags.find? fun dtag => dtag.id = id := by
  unfold HashTable.find
  split
  · rename_i hzero
    symm
    rw [List.find?_eq_none]
    intro dtag _ hid
    exact dtag.id_ne_zero ((of_decide_eq_true hid).trans hzero)
  · rw [h.bucket, List.find?_filter]
    congr 1
    funext dtag
    by_cases hid : dtag.id = id
    · simp [hid]
    · simp [hid]

theorem Holds.prune (h : table.Holds tags) (hit : DwarfOff → Bool) :
    (table.prune table.bits hit).Holds (tags.filter fun dtag => hit dtag.id) := by
  refine ⟨h.pos, h.lt, fun i => ?_⟩
  have hcomm : ∀ xs : List DwarfTag,
      (xs.filter fun dtag => hashtagsFn table.bits dtag.id = i).filter
          (fun dtag => hit dtag.id) =
        (xs.filter fun dtag => hit dtag.id).filter
          fun dtag => hashtagsFn table.bits dtag.id = i := by
    intro xs
    rw [List.filter_filter, List.filter_filter]
    congr 1
    funext dtag
    exact Bool.and_comm _ _
  unfold HashTable.prune
  dsimp only
  split
  · rw [h.bucket, hcomm]
  · rename_i hi
    rw [h.bucket, ← hcomm, List.filter_filter]
    refine List.filter_congr fun dtag _ => ?_
    have hlt := hashtagsFn_lt h.pos h.lt dtag.id
    have hne : hashtagsFn table.bits dtag.id ≠ i := by omega
    simp [hne]

end HashTable

end Pahole

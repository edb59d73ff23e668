import Mathlib.Tactic

/-!
# Byte streams

A stream of bytes and the position up to which it has been read.  An item is read
whole or not at all, and a read that fails has come to the end.  Reading is all that
a pipe offers, so that going forward on it is reading in chunks.
-/

/-- Bytes, and the position in them. -/
structure ByteStream where
  bytes : List UInt8
  pos : ℕ
  deriving DecidableEq

namespace ByteStream

variable {s s' : ByteStream} {n k : ℕ}

/-- The stream at another position. -/
def goTo (s : ByteStream) (pos : ℕ) : ByteStream := { s with pos := pos }

@[simp] theorem goTo_bytes : (s.goTo k).bytes = s.bytes := rfl

@[simp] theorem goTo_pos : (s.goTo k).pos = k := rfl

@[simp] theorem goTo_goTo {m : ℕ} : (s.goTo k).goTo m = s.goTo m := rfl

@[simp] theorem goTo_self : s.goTo s.pos = s := rfl

/-- The position is in the stream or at its end. -/
def Valid (s : ByteStream) : Prop := s.pos ≤ s.bytes.length

/-- `fread` of one item of `n` bytes; an item of no bytes cannot be read. -/
def read (s : ByteStream) (n : ℕ) : Option (List UInt8) × ByteStream :=
  if n = 0 then (none, s)
  else if s.pos + n ≤ s.bytes.length then
    (some ((s.bytes.drop s.pos).take n), s.goTo (s.pos + n))
  else (none, s.goTo s.bytes.length)

theorem read_eq_some {item : List UInt8} (h : s.read n = (some item, s')) :
    0 < n ∧ s.pos + n ≤ s.bytes.length ∧ s' = s.goTo (s.pos + n) := by
  unfold read at h
  split at h
  · simp at h
  · rename_i hn
    split at h
    · rename_i hle
      exact ⟨Nat.pos_of_ne_zero hn, hle, (Prod.mk.inj h).2.symm⟩
    · simp at h

theorem read_item {item : List UInt8} (h : s.read n = (some item, s')) :
    item = (s.bytes.drop s.pos).take n := by
  unfold read at h
  split at h
  · simp at h
  · split at h
    · exact (Option.some.inj (Prod.mk.inj h).1).symm
    · simp at h

theorem read_at_end (h : s.pos = s.bytes.length) : s.read n = (none, s) := by
  unfold read
  by_cases hn : n = 0
  · rw [if_pos hn]
  · have hlt : ¬s.pos + n ≤ s.bytes.length := by omega
    rw [if_neg hn, if_neg hlt, ← h, goTo_self]

theorem read_bytes : (s.read n).2.bytes = s.bytes := by
  unfold read
  split
  · rfl
  · split <;> rfl

theorem Valid.read (h : s.Valid) : (s.read n).2.Valid := by
  unfold ByteStream.read
  split
  · exact h
  · split
    · rename_i hle
      exact hle
    · exact le_refl _

/-- Goes forward over `offset` bytes, in chunks of at most `chunk`. -/
def skip (chunk : ℕ) : (fuel : ℕ) → ByteStream → (offset : ℕ) → Bool × ByteStream
  | 0, s, _ => (false, s)
  | fuel + 1, s, offset =>
      if offset = 0 then (true, s)
      else
        match s.read (min chunk offset) with
        | (none, s) => (false, s)
        | (some _, s) => skip chunk fuel s (offset - min chunk offset)

/-- Given the fuel, skipping fails only at the end of the stream. -/
theorem skip_eq {chunk fuel : ℕ} (hchunk : 0 < chunk) (hfuel : n < fuel) (hs : s.Valid) :
    skip chunk fuel s n =
      if s.pos + n ≤ s.bytes.length then (true, s.goTo (s.pos + n))
      else (false, s.goTo s.bytes.length) := by
  induction fuel generalizing s n with
  | zero => exact absurd hfuel (by omega)
  | succ fuel ih =>
      unfold skip
      by_cases hn : n = 0
      · have hle : s.pos + 0 ≤ s.bytes.length := hs
        subst hn
        rw [if_pos rfl, if_pos hle, Nat.add_zero, goTo_self]
      · have hmin : min chunk n ≠ 0 := by omega
        rw [if_neg hn]
        unfold read
        rw [if_neg hmin]
        by_cases hle : s.pos + min chunk n ≤ s.bytes.length
        · have hvalid : (s.goTo (s.pos + min chunk n)).Valid := hle
          have hsum : s.pos + min chunk n + (n - min chunk n) = s.pos + n := by omega
          have hrest := @ih (s.goTo (s.pos + min chunk n)) (n - min chunk n) (by omega) hvalid
          rw [goTo_pos, goTo_bytes, goTo_goTo, hsum, goTo_goTo] at hrest
          rw [if_pos hle]
          exact hrest
        · have hlong : ¬s.pos + n ≤ s.bytes.length := by omega
          rw [if_neg hle, if_neg hlong]

end ByteStream

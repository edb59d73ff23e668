import Mathlib.Tactic

/-!
# Reading fields in either byte order

An image is read field by field, at offsets, by a host of one byte order or the other.  A
getter swaps the bytes of a field where the image was written in the other order.  What is
read with getters alone does not depend on the order that the image was written in.  A
read keeps the fields that it has read, so that it is said what an image with all of them
swapped is.
-/

namespace ByteOrder

abbrev Byte := BitVec 8

/-- Whether the first byte of a field is the least or the most significant one. -/
inductive Host where
  | little | big
  deriving DecidableEq

/-- The bytes that a host reads, and whether their fields are in the other order. -/
structure Image where
  host : Host
  bytes : List Byte
  swapped : Bool

/-- A field that is read. -/
structure Field where
  offset : ℕ
  width : ℕ
  deriving DecidableEq

/-! ## Swapping -/

def swap16 (val : BitVec 16) : BitVec 16 := (val >>> 8) ||| (val <<< 8)

def swap32 (val : BitVec 32) : BitVec 32 :=
  (val >>> 24) ||| ((val >>> 8) &&& 0x0000ff00) ||| ((val <<< 8) &&& 0x00ff0000) ||| (val <<< 24)

theorem swap16_append (a b : Byte) : swap16 (a ++ b) = b ++ a := by
  apply BitVec.eq_of_getLsbD_eq
  intro i hi
  rw [swap16]
  simp only [BitVec.getLsbD_or, BitVec.getLsbD_ushiftRight, BitVec.getLsbD_shiftLeft,
    BitVec.getLsbD_append]
  interval_cases i <;> simp

theorem swap32_append (a b c d : Byte) : swap32 (a ++ b ++ c ++ d) = d ++ c ++ b ++ a := by
  apply BitVec.eq_of_getLsbD_eq
  intro i hi
  rw [swap32]
  simp only [BitVec.getLsbD_or, BitVec.getLsbD_and, BitVec.getLsbD_ushiftRight,
    BitVec.getLsbD_shiftLeft, BitVec.getLsbD_append]
  interval_cases i <;> simp

@[simp] theorem swap16_swap16 (val : BitVec 16) : swap16 (swap16 val) = val := by
  apply BitVec.eq_of_getLsbD_eq
  intro i hi
  rw [swap16, swap16]
  simp only [BitVec.getLsbD_or, BitVec.getLsbD_ushiftRight, BitVec.getLsbD_shiftLeft]
  interval_cases i <;> simp

@[simp] theorem swap32_swap32 (val : BitVec 32) : swap32 (swap32 val) = val := by
  apply BitVec.eq_of_getLsbD_eq
  intro i hi
  rw [swap32, swap32]
  simp only [BitVec.getLsbD_or, BitVec.getLsbD_and, BitVec.getLsbD_ushiftRight,
    BitVec.getLsbD_shiftLeft]
  interval_cases i <;> simp

/-- The values that swapping leaves alone are those of two equal bytes. -/
theorem swap16_eq_self_iff (val : BitVec 16) :
    swap16 val = val ↔ val.extractLsb' 8 8 = val.extractLsb' 0 8 := by
  have hval : val.extractLsb' 8 8 ++ val.extractLsb' 0 8 = val := by
    apply BitVec.eq_of_getLsbD_eq
    intro i hi
    simp only [BitVec.getLsbD_append, BitVec.getLsbD_extractLsb']
    interval_cases i <;> simp
  generalize val.extractLsb' 8 8 = high at *
  generalize val.extractLsb' 0 8 = low at *
  subst hval
  rw [swap16_append]
  constructor
  · intro h
    have hlow : (low ++ high).extractLsb' 0 8 = (high ++ low).extractLsb' 0 8 := by rw [h]
    rw [BitVec.extractLsb'_append_eq_right, BitVec.extractLsb'_append_eq_right] at hlow
    exact hlow
  · rintro rfl
    rfl

theorem swap32_eq_zero_iff (val : BitVec 32) : swap32 val = 0 ↔ val = 0 := by
  constructor
  · intro h
    rw [← swap32_swap32 val, h]
    decide
  · rintro rfl
    decide

/-! ## Reading -/

namespace Image

/-- A field of two bytes, as the host has it. -/
def raw16 (img : Image) (off : ℕ) : Option (BitVec 16) :=
  match img.bytes[off]?, img.bytes[off + 1]? with
  | some a, some b =>
      match img.host with
      | .little => some (b ++ a)
      | .big => some (a ++ b)
  | _, _ => none

/-- A field of four bytes, as the host has it. -/
def raw32 (img : Image) (off : ℕ) : Option (BitVec 32) :=
  match img.bytes[off]?, img.bytes[off + 1]?, img.bytes[off + 2]?, img.bytes[off + 3]? with
  | some a, some b, some c, some d =>
      match img.host with
      | .little => some (d ++ c ++ b ++ a)
      | .big => some (a ++ b ++ c ++ d)
  | _, _, _, _ => none

end Image

/-- A read: its result, or an error, and the fields that it has read. -/
def ReadM (ε α : Type) : Type := Image → Except ε α × List Field

namespace ReadM

variable {ε α β : Type}

instance : Monad (ReadM ε) where
  pure a := fun _ => (.ok a, [])
  bind read next := fun img =>
    match read img with
    | (.error e, fields) => (.error e, fields)
    | (.ok a, fields) => ((next a img).1, fields ++ (next a img).2)

theorem bind_apply (read : ReadM ε α) (next : α → ReadM ε β) (img : Image) :
    (read >>= next) img =
      match read img with
      | (.error e, fields) => (.error e, fields)
      | (.ok a, fields) => ((next a img).1, fields ++ (next a img).2) :=
  rfl

theorem bind_pure_fst (read : ReadM ε α) (f : α → β) (img : Image) :
    ((read >>= fun a => pure (f a)) img).1 = (read img).1.map f := by
  rw [bind_apply]
  cases read img with
  | mk res fields => cases res <;> rfl

theorem bind_pure_snd (read : ReadM ε α) (f : α → β) (img : Image) :
    ((read >>= fun a => pure (f a)) img).2 = (read img).2 := by
  rw [bind_apply]
  cases read img with
  | mk res fields =>
      cases res with
      | error e => rfl
      | ok a => exact List.append_nil fields

/-- The error `e`. -/
def fail (e : ε) : ReadM ε α := fun _ => (.error e, [])

/-- The number of bytes. -/
def size : ReadM ε ℕ := fun img => (.ok img.bytes.length, [])

/-- A field of one byte; `past` is the error where the image has ended. -/
def byte (past : ε) (off : ℕ) : ReadM ε Byte := fun img =>
  match img.bytes[off]? with
  | none => (.error past, [])
  | some b => (.ok b, [⟨off, 1⟩])

/-- A field of two bytes, as the host has it. -/
def raw16 (past : ε) (off : ℕ) : ReadM ε (BitVec 16) := fun img =>
  match img.raw16 off with
  | none => (.error past, [])
  | some val => (.ok val, [⟨off, 2⟩])

/-- Whether a field of four bytes is other than zero, as the host has it. -/
def nonzero32 (past : ε) (off : ℕ) : ReadM ε Bool := fun img =>
  match img.raw32 off with
  | none => (.error past, [])
  | some val => (.ok (val ≠ 0), [⟨off, 4⟩])

/-- The getter for two bytes. -/
def get16 (past : ε) (off : ℕ) : ReadM ε (BitVec 16) := fun img =>
  match img.raw16 off with
  | none => (.error past, [])
  | some val => (.ok (if img.swapped then swap16 val else val), [⟨off, 2⟩])

/-- The getter for four bytes. -/
def get32 (past : ε) (off : ℕ) : ReadM ε (BitVec 32) := fun img =>
  match img.raw32 off with
  | none => (.error past, [])
  | some val => (.ok (if img.swapped then swap32 val else val), [⟨off, 4⟩])

end ReadM

/-! ## Swapped images -/

/-- The bytes of the field are in reverse order in `bytes'`. -/
def SwappedAt (bytes bytes' : List Byte) (f : Field) : Prop :=
  ∀ i < f.width, bytes'[f.offset + i]? = bytes[f.offset + (f.width - 1 - i)]?

instance (bytes bytes' : List Byte) (f : Field) : Decidable (SwappedAt bytes bytes' f) :=
  inferInstanceAs (Decidable (∀ i < f.width, _))

/-- Two images of one length and host whose fields have reversed bytes, read with opposite
settings of `swapped`. -/
structure Swapped (fields : List Field) (img img' : Image) : Prop where
  host : img'.host = img.host
  swapped : img'.swapped = !img.swapped
  length : img'.bytes.length = img.bytes.length
  fields : ∀ f ∈ fields, SwappedAt img.bytes img'.bytes f

namespace Swapped

variable {fields fields' : List Field} {img img' : Image} {off : ℕ}

theorem left (h : Swapped (fields ++ fields') img img') : Swapped fields img img' where
  __ := h
  fields f hf := h.fields f (List.mem_append_left _ hf)

theorem right (h : Swapped (fields ++ fields') img img') : Swapped fields' img img' where
  __ := h
  fields f hf := h.fields f (List.mem_append_right _ hf)

end Swapped

section SwappedAt

variable {img img' : Image} {off : ℕ}

theorem raw16_swapped (hhost : img'.host = img.host) (h : SwappedAt img.bytes img'.bytes ⟨off, 2⟩) :
    img'.raw16 off = (img.raw16 off).map swap16 := by
  have h0 : img'.bytes[off]? = img.bytes[off + 1]? := h 0 (by simp)
  have h1 : img'.bytes[off + 1]? = img.bytes[off]? := h 1 (by simp)
  rw [Image.raw16, Image.raw16, h0, h1, hhost]
  cases img.bytes[off]? with
  | none => cases img.bytes[off + 1]? <;> rfl
  | some a =>
      cases img.bytes[off + 1]? with
      | none => rfl
      | some b => cases img.host <;> exact congrArg some (swap16_append _ _).symm

theorem raw32_swapped (hhost : img'.host = img.host) (h : SwappedAt img.bytes img'.bytes ⟨off, 4⟩) :
    img'.raw32 off = (img.raw32 off).map swap32 := by
  have h0 : img'.bytes[off]? = img.bytes[off + 3]? := h 0 (by simp)
  have h1 : img'.bytes[off + 1]? = img.bytes[off + 2]? := h 1 (by simp)
  have h2 : img'.bytes[off + 2]? = img.bytes[off + 1]? := h 2 (by simp)
  have h3 : img'.bytes[off + 3]? = img.bytes[off]? := h 3 (by simp)
  rw [Image.raw32, Image.raw32, h0, h1, h2, h3, hhost]
  cases img.bytes[off]? with
  | none =>
      cases img.bytes[off + 1]? <;> cases img.bytes[off + 2]? <;>
        cases img.bytes[off + 3]? <;> rfl
  | some a =>
      cases img.bytes[off + 1]? with
      | none => cases img.bytes[off + 2]? <;> cases img.bytes[off + 3]? <;> rfl
      | some b =>
          cases img.bytes[off + 2]? with
          | none => cases img.bytes[off + 3]? <;> rfl
          | some c =>
              cases img.bytes[off + 3]? with
              | none => rfl
              | some d => cases img.host <;> exact congrArg some (swap32_append _ _ _ _).symm

/-- Reading a field from an image in the other byte order gives the same value. -/
theorem get16_swapped {ε : Type} {past : ε} (hhost : img'.host = img.host)
    (hswapped : img'.swapped = !img.swapped) (h : SwappedAt img.bytes img'.bytes ⟨off, 2⟩) :
    ReadM.get16 past off img' = ReadM.get16 past off img := by
  rw [ReadM.get16, ReadM.get16, raw16_swapped hhost h, hswapped]
  cases img.raw16 off with
  | none => rfl
  | some val => cases img.swapped <;> simp

theorem get32_swapped {ε : Type} {past : ε} (hhost : img'.host = img.host)
    (hswapped : img'.swapped = !img.swapped) (h : SwappedAt img.bytes img'.bytes ⟨off, 4⟩) :
    ReadM.get32 past off img' = ReadM.get32 past off img := by
  rw [ReadM.get32, ReadM.get32, raw32_swapped hhost h, hswapped]
  cases img.raw32 off with
  | none => rfl
  | some val => cases img.swapped <;> simp

theorem raw16_eq_none_iff : img.raw16 off = none ↔ img.bytes.length ≤ off + 1 := by
  rw [Image.raw16]
  constructor
  · intro h
    by_contra hlt
    have h0 : img.bytes[off]? = some img.bytes[off] := List.getElem?_eq_getElem (by omega)
    have h1 : img.bytes[off + 1]? = some img.bytes[off + 1] := List.getElem?_eq_getElem (by omega)
    rw [h0, h1] at h
    cases hhost : img.host <;> simp [hhost] at h
  · intro h
    rw [List.getElem?_eq_none h]
    cases img.bytes[off]? <;> rfl

theorem raw32_eq_none_iff : img.raw32 off = none ↔ img.bytes.length ≤ off + 3 := by
  rw [Image.raw32]
  constructor
  · intro h
    by_contra hlt
    have h0 : img.bytes[off]? = some img.bytes[off] := List.getElem?_eq_getElem (by omega)
    have h1 : img.bytes[off + 1]? = some img.bytes[off + 1] := List.getElem?_eq_getElem (by omega)
    have h2 : img.bytes[off + 2]? = some img.bytes[off + 2] := List.getElem?_eq_getElem (by omega)
    have h3 : img.bytes[off + 3]? = some img.bytes[off + 3] := List.getElem?_eq_getElem (by omega)
    rw [h0, h1, h2, h3] at h
    cases hhost : img.host <;> simp [hhost] at h
  · intro h
    rw [List.getElem?_eq_none h]
    cases img.bytes[off]? <;> cases img.bytes[off + 1]? <;> cases img.bytes[off + 2]? <;> rfl

end SwappedAt

/-! ## Reads of images in different orders -/

/-- On an image and a swapped one, `read'` returns `f` of what `read` returns. -/
def Corresponds {ε α β : Type} (f : α → β) (read : ReadM ε α) (read' : ReadM ε β) : Prop :=
  ∀ img img', Swapped (read img).2 img img' → read' img' = ((read img).1.map f, (read img).2)

namespace Corresponds

variable {ε α β γ δ : Type} {past : ε} {off : ℕ}

theorem pure (f : α → β) (a : α) : Corresponds f (pure a : ReadM ε α) (pure (f a)) :=
  fun _ _ _ => rfl

theorem bind {f : α → β} {g : γ → δ} {read : ReadM ε α} {read' : ReadM ε β}
    {next : α → ReadM ε γ} {next' : β → ReadM ε δ} (hread : Corresponds f read read')
    (hnext : ∀ a, Corresponds g (next a) (next' (f a))) :
    Corresponds g (read >>= next) (read' >>= next') := by
  intro img img' h
  rw [ReadM.bind_apply] at h ⊢
  rw [ReadM.bind_apply]
  have hread := hread img img'
  cases hres : read img with
  | mk res fields =>
      rw [hres] at h hread
      cases res with
      | error e =>
          rw [hread h]
          rfl
      | ok a =>
          dsimp only at h
          rw [hread h.left]
          dsimp only [Except.map]
          rw [hnext a img img' h.right]
          rfl

/-- A field that is read without the getter comes out swapped. -/
theorem raw16 : Corresponds swap16 (ReadM.raw16 past off) (ReadM.raw16 past off) := by
  intro img img' h
  rw [ReadM.raw16] at h
  rw [ReadM.raw16, ReadM.raw16]
  cases hraw : img.raw16 off with
  | none =>
      have hnone : img'.raw16 off = none := by
        rw [raw16_eq_none_iff, h.length]
        exact raw16_eq_none_iff.mp hraw
      rw [hnone]
      rfl
  | some val =>
      rw [hraw] at h
      rw [raw16_swapped h.host (h.fields ⟨off, 2⟩ (by simp)), hraw]
      rfl

end Corresponds

/-- Reading returns the same from an image and from a swapped one. -/
def Independent {ε α : Type} (read : ReadM ε α) : Prop :=
  ∀ img img', Swapped (read img).2 img img' → read img' = read img

namespace Independent

variable {ε α β : Type} {past : ε} {off : ℕ}

theorem iff_corresponds {read : ReadM ε α} : Independent read ↔ Corresponds id read read := by
  refine forall₃_congr fun img img' _ => ?_
  have hid : (read img).1.map id = (read img).1 := by cases (read img).1 <;> rfl
  rw [hid]

theorem pure (a : α) : Independent (pure a : ReadM ε α) := fun _ _ _ => rfl

theorem fail (e : ε) : Independent (ReadM.fail e : ReadM ε α) := fun _ _ _ => rfl

theorem size : Independent (ReadM.size : ReadM ε ℕ) := fun img img' h => by
  rw [ReadM.size, h.length]
  rfl

theorem bind {read : ReadM ε α} {next : α → ReadM ε β} (hread : Independent read)
    (hnext : ∀ a, Independent (next a)) : Independent (read >>= next) :=
  iff_corresponds.mpr <| (iff_corresponds.mp hread).bind fun a => iff_corresponds.mp (hnext a)

theorem map {read : ReadM ε α} (f : α → β) (hread : Independent read) :
    Independent (f <$> read) :=
  hread.bind fun a => pure (f a)

theorem ite {c : Prop} [Decidable c] {read read' : ReadM ε α} (hread : Independent read)
    (hread' : Independent read') : Independent (if c then read else read') := by
  split
  · exact hread
  · exact hread'

theorem byte : Independent (ReadM.byte past off) := by
  intro img img' h
  rw [ReadM.byte] at h ⊢
  rw [ReadM.byte]
  cases hbyte : img.bytes[off]? with
  | none =>
      have hnone : img'.bytes[off]? = none := by
        rw [List.getElem?_eq_none_iff, h.length]
        exact List.getElem?_eq_none_iff.mp hbyte
      rw [hnone]
  | some b =>
      rw [hbyte] at h
      have hsame : img'.bytes[off]? = img.bytes[off]? := h.fields ⟨off, 1⟩ (by simp) 0 (by simp)
      rw [hsame, hbyte]

theorem get16 : Independent (ReadM.get16 past off) := by
  intro img img' h
  cases hraw : img.raw16 off with
  | none =>
      have hnone : img'.raw16 off = none := by
        rw [raw16_eq_none_iff, h.length]
        exact raw16_eq_none_iff.mp hraw
      rw [ReadM.get16, ReadM.get16, hraw, hnone]
  | some val =>
      refine get16_swapped h.host h.swapped (h.fields ⟨off, 2⟩ ?_)
      rw [ReadM.get16, hraw]
      exact List.mem_singleton_self _

theorem get32 : Independent (ReadM.get32 past off) := by
  intro img img' h
  cases hraw : img.raw32 off with
  | none =>
      have hnone : img'.raw32 off = none := by
        rw [raw32_eq_none_iff, h.length]
        exact raw32_eq_none_iff.mp hraw
      rw [ReadM.get32, ReadM.get32, hraw, hnone]
  | some val =>
      refine get32_swapped h.host h.swapped (h.fields ⟨off, 4⟩ ?_)
      rw [ReadM.get32, hraw]
      exact List.mem_singleton_self _

theorem nonzero32 : Independent (ReadM.nonzero32 past off) := by
  intro img img' h
  rw [ReadM.nonzero32] at h ⊢
  rw [ReadM.nonzero32]
  cases hraw : img.raw32 off with
  | none =>
      have hnone : img'.raw32 off = none := by
        rw [raw32_eq_none_iff, h.length]
        exact raw32_eq_none_iff.mp hraw
      rw [hnone]
  | some val =>
      rw [hraw] at h
      rw [raw32_swapped h.host (h.fields ⟨off, 4⟩ (by simp)), hraw]
      simp only [Option.map_some, ne_eq, swap32_eq_zero_iff]

end Independent

end ByteOrder

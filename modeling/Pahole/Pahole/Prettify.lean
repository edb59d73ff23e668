import Pahole.Support.ByteStream

/-!
# Pretty-printing records from a file or a pipe

`prototype__stdio_fprintf_value` of `pahole.c` prints the records of one type from the
input, and `pahole_stealer` calls it for one prototype after another.  A prototype may
ask for an offset to start from.  On a regular file that is an absolute seek; on a
pipe the bytes up to there are read and thrown away, counted from `consumed`, a
variable of the call that only knows of the header that the same call has read.
-/

namespace Pahole.Prettify

/-! ## Values of members -/

/-- The bytes of an instance as a number, the least significant first. -/
def littleEndian : List UInt8 → ℕ
  | [] => 0
  | b :: bs => b.toNat + 256 * littleEndian bs

theorem littleEndian_lt {contents : List UInt8} :
    littleEndian contents < 2 ^ (8 * contents.length) := by
  induction contents with
  | nil => exact Nat.one_pos
  | cons b contents ih =>
      have hb : b.toNat < 256 := b.toNat_lt
      have hpow : 2 ^ (8 * (contents.length + 1)) = 256 * 2 ^ (8 * contents.length) := by
        rw [Nat.mul_succ, pow_add, mul_comm]
        rfl
      rw [littleEndian, List.length_cons, hpow]
      omega

/-- A value of `8 * size` bits as a signed one. -/
def signedValue (size : ℕ) (value : ℕ) : ℤ :=
  if value < 2 ^ (8 * size - 1) then value else (value : ℤ) - 2 ^ (8 * size)

/-- `base_type__value` of the bytes from `offset` on, as an `int64_t`. -/
def baseTypeValue (bytes : List UInt8) (offset size : ℕ) : ℤ :=
  if size = 4 ∨ size = 8 ∨ size = 1 ∨ size = 2 then
    signedValue size (littleEndian ((bytes.drop offset).take size))
  else 0

/-- Where a member is. -/
structure MemberPlace where
  byteOffset : ℕ
  byteSize : ℕ
  deriving DecidableEq

/-- The type of `--header_type`.  `member` is the member that a dotted name leads to,
if there is one and its type is a base type. -/
structure HeaderType where
  name : String
  size : ℕ
  member : String → Option MemberPlace

/-- `struct type_instance` -/
structure TypeInstance where
  type : HeaderType
  readAlready : Bool
  bytes : List UInt8

/-- `type_instance__int_value` -/
def TypeInstance.intValue (header : TypeInstance) (memberName : String) : ℤ :=
  match header.type.member memberName with
  | none => -1
  | some place => baseTypeValue header.bytes place.byteOffset place.byteSize

/-! ## Input options -/

/-- `--seek_bytes` and `--size_bytes`: a member of the header, or a number. -/
inductive ByteCount where
  | header (memberName : String)
  | literal (value : ℤ)
  deriving DecidableEq

/-- The part of `conf` that the input is read with. -/
structure InputConf where
  headerType : Option String
  range : Option String
  seekBytes : Option ByteCount
  sizeBytes : Option ByteCount
  skip : ℕ
  count : ℕ

/-- `struct class_member_filter` -/
structure MemberFilter where
  left : MemberPlace
  right : ℤ

/-- `struct prototype`, with what its class contributes: the size, the member that has
the size of a record, and the filter. -/
structure Prototype where
  name : String
  range : Option String
  size : ℕ
  sizeofMember : Option MemberPlace
  filter : Option MemberFilter

/-- `tag__real_sizeof`, as an `int`. -/
def Prototype.realSizeof (proto : Prototype) (inst : List UInt8) : ℤ :=
  match proto.sizeofMember with
  | none => proto.size
  | some place =>
      let value := baseTypeValue inst place.byteOffset place.byteSize
      signedValue 4 (value % 2 ^ 32).toNat

/-- `type__filter_value`, which is true of the records to leave out. -/
def Prototype.filterValue (proto : Prototype) (inst : List UInt8) : Bool :=
  match proto.filter with
  | none => false
  | some filter =>
      baseTypeValue inst filter.left.byteOffset filter.left.byteSize ≠ filter.right

/-- The errors of a prototype. -/
inductive PrettyError where
  /-- `--header (%s) type couldn't be read` -/
  | headerUnread
  /-- `--header_type=%s not found` -/
  | headerTypeNotFound (name : String)
  /-- `range (%s) requires --header` -/
  | rangeWithoutHeader (range : String)
  /-- `couldn't read the '%s' member of '%s' for evaluating range=%s` -/
  | rangeMemberUnread (memberName range : String)
  /-- `--seek_bytes (%s) makes reference to --header but it wasn't specified` -/
  | seekBytesWithoutHeader (memberName : String)
  /-- `couldn't read the '%s' member of '%s' for evaluating --seek_bytes=%s` -/
  | seekBytesMemberUnread (memberName : String)
  /-- `seek bytes evaluated from --seek_bytes=%s is less than the header type size` -/
  | seekBytesInHeader (memberName : String)
  /-- `--size_bytes (%s) makes reference to --header but it wasn't specified` -/
  | sizeBytesWithoutHeader (memberName : String)
  /-- `couldn't read the '%s' member of '%s' for evaluating --size_bytes=%s` -/
  | sizeBytesMemberUnread (memberName : String)
  /-- `can't seek backward in non-seekable input, already read %d bytes, target %#x` -/
  | seekBackward (consumed target : ℤ)
  /-- `Couldn't seek to offset %d for range=%s`, `Couldn't --seek_bytes %s (%d)` -/
  | seekFailed (target : ℤ)
  /-- `seek offset %d is beyond file size %d for range=%s`, `--seek_bytes %d is beyond
  file size %d` -/
  | beyondFileSize (target : ℤ) (fileSize : ℕ)
  /-- `Couldn't read record: %d bytes` -/
  | recordUnread (realSizeof : ℤ)
  deriving DecidableEq

/-- The state shared by the prototypes: the header and the input. -/
structure Session where
  header : Option TypeInstance
  input : ByteStream

/-! ## Seeking -/

/-- `type__instance_read_once`, with the bytes that it has read. -/
def Session.readHeaderOnce (s : Session) : Except PrettyError (ℕ × Session) :=
  match s.header with
  | none => .ok (0, s)
  | some header =>
      if header.readAlready then .ok (0, s)
      else
        match s.input.read header.type.size with
        | (none, _) => .error .headerUnread
        | (some bytes, input) =>
            .ok (header.type.size,
              { header := some { header with readAlready := true, bytes := bytes },
                input := input })

/-- The offset that a prototype starts from, if it asks for one. -/
def seekTarget (conf : InputConf) (proto : Prototype) (header : Option TypeInstance) :
    Except PrettyError (Option ℤ) :=
  match conf.range.or proto.range with
  | some range =>
      match header with
      | none =>
          match conf.headerType with
          | some name => .error (.headerTypeNotFound name)
          | none => .error (.rangeWithoutHeader range)
      | some header =>
          let value := header.intValue (range ++ ".offset")
          if value < 0 then .error (.rangeMemberUnread (range ++ ".offset") range)
          else .ok (some value)
  | none =>
      match conf.seekBytes with
      | none => .ok none
      | some (.literal value) => .ok (some value)
      | some (.header memberName) =>
          match header with
          | none => .error (.seekBytesWithoutHeader memberName)
          | some header =>
              let value := header.intValue memberName
              if value < 0 then .error (.seekBytesMemberUnread memberName)
              else if value < header.type.size then .error (.seekBytesInHeader memberName)
              else .ok (some value)

/-- How many bytes of records to print, as a `uint64_t`. -/
def sizeTarget (conf : InputConf) (proto : Prototype) (header : Option TypeInstance) :
    Except PrettyError ℕ :=
  match conf.range.or proto.range with
  | some range =>
      let value := (header.map fun h => h.intValue (range ++ ".size")).getD (-1)
      if value < 0 then .error (.rangeMemberUnread (range ++ ".size") range)
      else .ok value.toNat
  | none =>
      match conf.sizeBytes with
      | none => .ok (2 ^ 64 - 1)
      | some (.literal value) => .ok (value % 2 ^ 64).toNat
      | some (.header memberName) =>
          match header with
          | none => .error (.sizeBytesWithoutHeader memberName)
          | some header =>
              let value := header.intValue memberName
              if value < 0 then .error (.sizeBytesMemberUnread memberName)
              else .ok value.toNat

/-- `pipe_seek`, with its buffer of 4096 bytes. -/
def pipeSeek (input : ByteStream) (offset : ℤ) : Bool × ByteStream :=
  if offset < 0 then (false, input)
  else ByteStream.skip 4096 (offset.toNat + 1) input offset.toNat

/-- `fseeko`, and what stands in for it on an input that is not `seekable`. -/
def seekTo (seekable : Bool) (input : ByteStream) (consumed : ℕ) (target : ℤ) :
    Except PrettyError ByteStream :=
  if seekable ∧ 0 ≤ target then
    if input.bytes.length ≤ target then .error (.beyondFileSize target input.bytes.length)
    else .ok (input.goTo target.toNat)
  else if target < consumed then .error (.seekBackward consumed target)
  else
    match pipeSeek input (target - consumed) with
    | (true, input) => .ok input
    | (false, _) => .error (.seekFailed target)

/-! ## Records -/

/-- A record that has been printed: for which prototype, from which offset, and the
bytes it was read from. -/
structure Printed where
  prototype : String
  offset : ℕ
  bytes : List UInt8
  realSizeof : ℤ
  deriving DecidableEq

/-- The outcome of a call: its error, the input after it, and the records printed. -/
structure Outcome where
  error : Option PrettyError
  input : ByteStream
  records : List Printed

/-- A record before the ones of the outcome. -/
def Outcome.after (record : Printed) (out : Outcome) : Outcome :=
  { out with records := record :: out.records }

/-- `read_bytes += real_sizeof` -/
def addReadBytes (readBytes : ℕ) (realSizeof : ℤ) : ℕ :=
  ((readBytes + realSizeof) % 2 ^ 64).toNat

/-- Reading a whole record: what is past the size of the type comes second. -/
def readTail (proto : Prototype) (inst : List UInt8) (input : ByteStream) :
    Option (List UInt8) × ByteStream :=
  if proto.size < proto.realSizeof inst then
    input.read (proto.realSizeof inst - proto.size).toNat
  else (some [], input)

/-- The loop over the records. -/
def readRecords (conf : InputConf) (proto : Prototype) (sizeBytes : ℕ) :
    (fuel : ℕ) → ByteStream → (skip count readBytes : ℕ) → Outcome
  | 0, input, _, _, _ => { error := none, input := input, records := [] }
  | fuel + 1, input, skip, count, readBytes =>
      match input.read proto.size with
      | (none, input') => { error := none, input := input', records := [] }
      | (some inst, input') =>
          let realSizeof := proto.realSizeof inst
          match readTail proto inst input' with
          | (none, input'') =>
              { error := some (.recordUnread realSizeof), input := input'', records := [] }
          | (some more, input'') =>
              let readBytes := addReadBytes readBytes realSizeof
              let done : Outcome := { error := none, input := input'', records := [] }
              let next := fun skip count =>
                if sizeBytes ≤ readBytes then done
                else readRecords conf proto sizeBytes fuel input'' skip count readBytes
              if proto.filterValue (inst ++ more) then next skip count
              else if skip ≠ 0 then next (skip - 1) count
              else
                let record : Printed :=
                  { prototype := proto.name, offset := input.pos, bytes := inst ++ more,
                    realSizeof := realSizeof }
                if conf.count ≠ 0 ∧ count + 1 = conf.count then done.after record
                else (next skip (count + 1)).after record

section Records

variable {conf : InputConf} {proto : Prototype} {sizeBytes : ℕ}

theorem readTail_eq_some {inst more : List UInt8} {input input' : ByteStream}
    (h : readTail proto inst input = (some more, input')) :
    input'.bytes = input.bytes ∧ input.pos ≤ input'.pos := by
  unfold readTail at h
  split at h
  · obtain ⟨-, -, rfl⟩ := ByteStream.read_eq_some h
    exact ⟨rfl, Nat.le_add_right _ _⟩
  · obtain rfl := (Prod.mk.inj h).2
    exact ⟨rfl, le_refl _⟩

theorem readTail_bytes {inst : List UInt8} {input : ByteStream} :
    (readTail proto inst input).2.bytes = input.bytes := by
  unfold readTail
  split
  · exact ByteStream.read_bytes
  · rfl

theorem readTail_valid {inst : List UInt8} {input : ByteStream} (h : input.Valid) :
    (readTail proto inst input).2.Valid := by
  unfold readTail
  split
  · exact h.read
  · exact h

/-- The fuel that the loop is given is enough: more makes no difference. -/
theorem readRecords_fuel {fuel fuel' : ℕ} {input : ByteStream} {skip count readBytes : ℕ}
    (h : input.bytes.length - input.pos < fuel) (h' : input.bytes.length - input.pos < fuel') :
    readRecords conf proto sizeBytes fuel input skip count readBytes =
      readRecords conf proto sizeBytes fuel' input skip count readBytes := by
  induction fuel generalizing fuel' input skip count readBytes with
  | zero => exact absurd h (by omega)
  | succ fuel ih =>
      cases fuel' with
      | zero => exact absurd h' (by omega)
      | succ fuel' =>
          unfold readRecords
          cases hread : input.read proto.size with
          | mk item input' =>
              cases item with
              | none => rfl
              | some inst =>
                  obtain ⟨hpos, hle, rfl⟩ := ByteStream.read_eq_some hread
                  cases htail : readTail proto inst (input.goTo (input.pos + proto.size)) with
                  | mk tail input'' =>
                      cases tail with
                      | none => simp only [htail]
                      | some more =>
                          obtain ⟨hbytes, hge⟩ := readTail_eq_some htail
                          rw [ByteStream.goTo_bytes] at hbytes
                          rw [ByteStream.goTo_pos] at hge
                          have hless : input''.bytes.length - input''.pos < fuel := by
                            rw [hbytes]
                            omega
                          have hless' : input''.bytes.length - input''.pos < fuel' := by
                            rw [hbytes]
                            omega
                          simp only [htail, fun skip count readBytes =>
                            @ih fuel' input'' skip count readBytes hless hless']

/-- The loop over the records keeps the stream valid and its bytes as they are. -/
theorem readRecords_input {fuel : ℕ} {input : ByteStream} {skip count readBytes : ℕ}
    (h : input.Valid) :
    (readRecords conf proto sizeBytes fuel input skip count readBytes).input.Valid ∧
      (readRecords conf proto sizeBytes fuel input skip count readBytes).input.bytes =
        input.bytes := by
  induction fuel generalizing input skip count readBytes with
  | zero => exact ⟨h, rfl⟩
  | succ fuel ih =>
      unfold readRecords
      have hvalid : (input.read proto.size).2.Valid := h.read
      have hbytes : (input.read proto.size).2.bytes = input.bytes := ByteStream.read_bytes
      cases hread : input.read proto.size with
      | mk item input' =>
          rw [hread] at hvalid hbytes
          cases item with
          | none => exact ⟨hvalid, hbytes⟩
          | some inst =>
              have htvalid : (readTail proto inst input').2.Valid := readTail_valid hvalid
              have htbytes : (readTail proto inst input').2.bytes = input'.bytes :=
                readTail_bytes
              cases htail : readTail proto inst input' with
              | mk tail input'' =>
                  rw [htail] at htvalid htbytes
                  have hin : input''.Valid ∧ input''.bytes = input.bytes :=
                    ⟨htvalid, htbytes.trans hbytes⟩
                  cases tail with
                  | none =>
                      simp only [htail]
                      exact hin
                  | some more =>
                      simp only [htail]
                      have hnext : ∀ skip count readBytes,
                          (if sizeBytes ≤ readBytes then
                              { error := none, input := input'', records := [] }
                            else readRecords conf proto sizeBytes fuel input'' skip count
                              readBytes : Outcome).input.Valid ∧
                          (if sizeBytes ≤ readBytes then
                              { error := none, input := input'', records := [] }
                            else readRecords conf proto sizeBytes fuel input'' skip count
                              readBytes : Outcome).input.bytes = input.bytes := by
                        intro skip count readBytes
                        split
                        · exact hin
                        · obtain ⟨hv, hb⟩ := @ih input'' skip count readBytes hin.1
                          exact ⟨hv, hb.trans hin.2⟩
                      split
                      · exact hnext skip count _
                      · split
                        · exact hnext (skip - 1) count _
                        · split
                          · exact hin
                          · exact hnext skip (count + 1) _

theorem readRecords_at_end {fuel : ℕ} {input : ByteStream} {skip count readBytes : ℕ}
    (h : input.pos = input.bytes.length) :
    readRecords conf proto sizeBytes fuel input skip count readBytes =
      { error := none, input := input, records := [] } := by
  cases fuel with
  | zero => rfl
  | succ fuel =>
      unfold readRecords
      rw [ByteStream.read_at_end h]

end Records

/-! ## Seeks on a file and on a pipe -/

section Seeks

variable {input input' : ByteStream} {consumed : ℕ} {target : ℤ}

/-- A seek on a pipe goes as far as the target is from the count, wherever it is. -/
theorem seekTo_pipe_eq_ok (hvalid : input.Valid)
    (h : seekTo false input consumed target = .ok input') :
    ∃ n : ℕ, target = consumed + n ∧ input.pos + n ≤ input.bytes.length ∧
      input' = input.goTo (input.pos + n) := by
  unfold seekTo pipeSeek at h
  by_cases hback : target < consumed
  · simp [hback] at h
  · obtain ⟨n, hn⟩ := Int.le.dest (not_lt.mp hback)
    have hdiff : target - consumed = (n : ℤ) := by omega
    have hpos : ¬(n : ℤ) < 0 := by omega
    rw [if_neg (by simp), if_neg hback, hdiff, if_neg hpos, Int.toNat_natCast,
      ByteStream.skip_eq (by norm_num) (Nat.lt_succ_self n) hvalid] at h
    by_cases hle : input.pos + n ≤ input.bytes.length
    · rw [if_pos hle] at h
      exact ⟨n, hn.symm, hle, (Except.ok.inj h).symm⟩
    · rw [if_neg hle] at h
      simp at h

/-- Where the count is the position, the seek on the pipe is that on the file, except
that only the file minds a target at the end. -/
theorem seekTo_file_of_pipe (hvalid : input.Valid) (hpos : input.pos = consumed)
    (h : seekTo false input consumed target = .ok input') :
    seekTo true input consumed target = .ok input' ∨
      (∃ err, seekTo true input consumed target = .error err) ∧
        input'.pos = input'.bytes.length := by
  obtain ⟨n, rfl, hle, rfl⟩ := seekTo_pipe_eq_ok hvalid h
  have hnonneg : (0 : ℤ) ≤ consumed + n := by omega
  have htoNat : ((consumed : ℤ) + n).toNat = input.pos + n := by omega
  unfold seekTo
  rw [if_pos ⟨rfl, hnonneg⟩]
  by_cases hend : (input.bytes.length : ℤ) ≤ consumed + n
  · refine Or.inr ⟨⟨_, if_pos hend⟩, ?_⟩
    rw [ByteStream.goTo_pos, ByteStream.goTo_bytes]
    omega
  · rw [if_neg hend, htoNat]
    exact Or.inl rfl

end Seeks

/-- The part of `prototype__stdio_fprintf_value` before the records. -/
def prepare (conf : InputConf) (seekable : Bool) (proto : Prototype) (s : Session) :
    Except PrettyError (Session × ℕ) := do
  let (consumed, s) ← s.readHeaderOnce
  let target ← seekTarget conf proto s.header
  let input ←
    match target with
    | none => pure s.input
    | some target => seekTo seekable s.input consumed target
  let sizeBytes ← sizeTarget conf proto s.header
  pure ({ s with input := input }, sizeBytes)

/-- `prototype__stdio_fprintf_value`: the session it leaves is that of the outcome. -/
def prototypeFprintf (conf : InputConf) (seekable : Bool) (proto : Prototype) (s : Session) :
    Option PrettyError × Session × List Printed :=
  match prepare conf seekable proto s with
  | .error err => (some err, s, [])
  | .ok (s, sizeBytes) =>
      let out := readRecords conf proto sizeBytes (s.input.bytes.length + 1) s.input
        conf.skip 0 0
      (out.error, { s with input := out.input }, out.records)

/-- The prototypes, up to the first one that fails. -/
def printPrototypes (conf : InputConf) (seekable : Bool) :
    List Prototype → Session → Option PrettyError × List Printed
  | [], _ => (none, [])
  | proto :: protos, s =>
      match prototypeFprintf conf seekable proto s with
      | (some err, _, records) => (some err, records)
      | (none, s, records) =>
          let rest := printPrototypes conf seekable protos s
          (rest.1, records ++ rest.2)

/-! ## Runs -/

/-- At its seek `proto` counts from the position of the stream. -/
def SeekInStep (conf : InputConf) (proto : Prototype) (s : Session) : Prop :=
  ∀ consumed s' target, s.readHeaderOnce = .ok (consumed, s') →
    seekTarget conf proto s'.header = .ok (some target) → s'.input.pos = consumed

/-- Every seek of a run on a pipe starts from a count that is the position. -/
def SeeksInStep (conf : InputConf) : List Prototype → Session → Prop
  | [], _ => True
  | proto :: protos, s =>
      SeekInStep conf proto s ∧
        ∀ s' records, prototypeFprintf conf false proto s = (none, s', records) →
          SeeksInStep conf protos s'

section Runs

variable {conf : InputConf} {seekable : Bool} {proto : Prototype} {s s' : Session}
  {sizeBytes consumed : ℕ} {records : List Printed}

/-- The header takes its size off the input when it is read, and nothing later. -/
theorem readHeaderOnce_eq_ok (h : s.readHeaderOnce = .ok (consumed, s'))
    (hvalid : s.input.Valid) :
    s'.input = s.input.goTo (s.input.pos + consumed) ∧ s'.input.Valid := by
  unfold Session.readHeaderOnce at h
  split at h
  · obtain ⟨rfl, rfl⟩ := Prod.mk.inj (Except.ok.inj h)
    exact ⟨rfl, hvalid⟩
  · split at h
    · obtain ⟨rfl, rfl⟩ := Prod.mk.inj (Except.ok.inj h)
      exact ⟨rfl, hvalid⟩
    · split at h
      · simp at h
      · rename_i hread
        obtain ⟨-, hle, hinput⟩ := ByteStream.read_eq_some hread
        obtain ⟨rfl, rfl⟩ := Prod.mk.inj (Except.ok.inj h)
        subst hinput
        exact ⟨rfl, hle⟩

/-- The count is right exactly for the prototypes that start at the beginning of the
stream. -/
theorem seekInStep_iff (hvalid : s.input.Valid) :
    SeekInStep conf proto s ↔
      ∀ consumed s' target, s.readHeaderOnce = .ok (consumed, s') →
        seekTarget conf proto s'.header = .ok (some target) → s.input.pos = 0 := by
  refine forall_congr' fun consumed => forall_congr' fun s' => forall_congr' fun target =>
    forall_congr' fun hheader => imp_congr_right fun _ => ?_
  rw [(readHeaderOnce_eq_ok hheader hvalid).1, ByteStream.goTo_pos]
  omega

/-- A preparation that succeeds has read the header, found the size, and sought to its target if
there is one. -/
theorem prepare_eq_ok (h : prepare conf seekable proto s = .ok (s', sizeBytes)) :
    ∃ consumed s₁, s.readHeaderOnce = .ok (consumed, s₁) ∧
      sizeTarget conf proto s₁.header = .ok sizeBytes ∧
      ((seekTarget conf proto s₁.header = .ok none ∧ s' = s₁) ∨
        ∃ target input, seekTarget conf proto s₁.header = .ok (some target) ∧
          seekTo seekable s₁.input consumed target = .ok input ∧
          s' = { s₁ with input := input }) := by
  unfold prepare at h
  cases hheader : s.readHeaderOnce with
  | error err => simp [hheader, bind, Except.bind] at h
  | ok read =>
      obtain ⟨consumed, s₁⟩ := read
      rw [hheader] at h
      cases htarget : seekTarget conf proto s₁.header with
      | error err => simp [htarget, bind, Except.bind] at h
      | ok asked =>
          cases hsize : sizeTarget conf proto s₁.header with
          | error err =>
              cases asked with
              | none => simp [htarget, hsize, bind, Except.bind, pure, Except.pure] at h
              | some target =>
                  cases hseek : seekTo seekable s₁.input consumed target <;>
                    simp [htarget, hsize, hseek, bind, Except.bind] at h
          | ok size =>
              refine ⟨consumed, s₁, rfl, ?_⟩
              cases asked with
              | none =>
                  simp [htarget, hsize, bind, Except.bind, pure, Except.pure] at h
                  obtain ⟨rfl, rfl⟩ := h
                  exact ⟨hsize, Or.inl ⟨htarget, rfl⟩⟩
              | some target =>
                  cases hseek : seekTo seekable s₁.input consumed target with
                  | error err => simp [htarget, hseek, bind, Except.bind] at h
                  | ok input =>
                      simp [htarget, hsize, hseek, bind, Except.bind, pure, Except.pure] at h
                      obtain ⟨rfl, rfl⟩ := h
                      exact ⟨hsize, Or.inr ⟨target, input, htarget, hseek, rfl⟩⟩

theorem prepare_of_no_seek {s₁ : Session} (hheader : s.readHeaderOnce = .ok (consumed, s₁))
    (htarget : seekTarget conf proto s₁.header = .ok none)
    (hsize : sizeTarget conf proto s₁.header = .ok sizeBytes) :
    prepare conf seekable proto s = .ok (s₁, sizeBytes) := by
  simp [prepare, hheader, htarget, hsize, bind, Except.bind, pure, Except.pure]

theorem prepare_of_seek {s₁ : Session} {target : ℤ}
    (hheader : s.readHeaderOnce = .ok (consumed, s₁))
    (htarget : seekTarget conf proto s₁.header = .ok (some target))
    (hsize : sizeTarget conf proto s₁.header = .ok sizeBytes) :
    prepare conf seekable proto s =
      (seekTo seekable s₁.input consumed target).map fun input =>
        ({ s₁ with input := input }, sizeBytes) := by
  cases hseek : seekTo seekable s₁.input consumed target <;>
    simp [prepare, hheader, htarget, hsize, hseek, bind, Except.bind, pure, Except.pure,
      Except.map]

/-- A preparation that succeeds on a pipe succeeds on the file with the same result, unless the
pipe is at its end. -/
theorem prepare_file_of_pipe (hvalid : s.input.Valid) (hstep : SeekInStep conf proto s)
    (h : prepare conf false proto s = .ok (s', sizeBytes)) :
    prepare conf true proto s = .ok (s', sizeBytes) ∨
      (∃ err, prepare conf true proto s = .error err) ∧
        s'.input.pos = s'.input.bytes.length := by
  obtain ⟨consumed, s₁, hheader, hsize, ⟨htarget, rfl⟩ | ⟨target, input, htarget, hseek, rfl⟩⟩ :=
    prepare_eq_ok h
  · exact Or.inl (prepare_of_no_seek hheader htarget hsize)
  · have hvalid₁ := (readHeaderOnce_eq_ok hheader hvalid).2
    rw [prepare_of_seek hheader htarget hsize]
    rcases seekTo_file_of_pipe hvalid₁ (hstep _ _ _ hheader htarget) hseek with
      hfile | ⟨⟨err, hfile⟩, hend⟩
    · rw [hfile]
      exact Or.inl rfl
    · rw [hfile]
      exact Or.inr ⟨⟨err, rfl⟩, hend⟩

/-- A preparation on a pipe keeps the stream valid, and keeps it at its end. -/
theorem prepare_pipe_input (hvalid : s.input.Valid)
    (h : prepare conf false proto s = .ok (s', sizeBytes)) :
    s'.input.Valid ∧ (s.input.pos = s.input.bytes.length →
      s'.input.pos = s'.input.bytes.length) := by
  obtain ⟨consumed, s₁, hheader, -, hcases⟩ := prepare_eq_ok h
  obtain ⟨hinput, hvalid₁⟩ := readHeaderOnce_eq_ok hheader hvalid
  have hle : s₁.input.pos ≤ s₁.input.bytes.length := hvalid₁
  rw [hinput, ByteStream.goTo_pos, ByteStream.goTo_bytes] at hle
  rcases hcases with ⟨-, rfl⟩ | ⟨target, input, -, hseek, rfl⟩
  · refine ⟨hvalid₁, fun hend => ?_⟩
    rw [hinput, ByteStream.goTo_pos, ByteStream.goTo_bytes]
    omega
  · obtain ⟨n, -, hn, rfl⟩ := seekTo_pipe_eq_ok hvalid₁ hseek
    refine ⟨hn, fun hend => ?_⟩
    rw [hinput, ByteStream.goTo_pos, ByteStream.goTo_bytes] at hn
    rw [hinput]
    simp only [ByteStream.goTo_pos, ByteStream.goTo_bytes]
    omega

/-- On a pipe that is at its end nothing more is printed. -/
theorem printPrototypes_at_end {protos : List Prototype} (hvalid : s.input.Valid)
    (hend : s.input.pos = s.input.bytes.length) :
    (printPrototypes conf false protos s).2 = [] := by
  induction protos generalizing s with
  | nil => rfl
  | cons proto protos ih =>
      unfold printPrototypes prototypeFprintf
      cases hprep : prepare conf false proto s with
      | error err => rfl
      | ok ready =>
          obtain ⟨s', sizeBytes⟩ := ready
          obtain ⟨hvalid', hend'⟩ := prepare_pipe_input hvalid hprep
          have hloop : readRecords conf proto sizeBytes (s'.input.bytes.length + 1) s'.input
              conf.skip 0 0 = { error := none, input := s'.input, records := [] } :=
            readRecords_at_end (hend' hend)
          simp only [hloop, List.nil_append]
          exact ih hvalid' (hend' hend)

/-- A run on a pipe prints what the run on the file does, or up to an error a part of that. -/
def Agrees (pipe file : Option PrettyError × List Printed) : Prop :=
  pipe.2 <+: file.2 ∧ (pipe.1 = none → pipe.2 = file.2)

theorem printPrototypes_agrees {protos : List Prototype} (hvalid : s.input.Valid)
    (hsteps : SeeksInStep conf protos s) :
    Agrees (printPrototypes conf false protos s) (printPrototypes conf true protos s) := by
  induction protos generalizing s with
  | nil => exact ⟨List.prefix_rfl, fun _ => rfl⟩
  | cons proto protos ih =>
      obtain ⟨hstep, hrest⟩ := hsteps
      cases hpipe : prepare conf false proto s with
      | error err =>
          have hnone : printPrototypes conf false (proto :: protos) s = (some err, []) := by
            simp [printPrototypes, prototypeFprintf, hpipe]
          rw [hnone]
          exact ⟨List.nil_prefix, fun h => absurd h (by simp)⟩
      | ok ready =>
          obtain ⟨s', sizeBytes⟩ := ready
          obtain ⟨hvalid', hend'⟩ := prepare_pipe_input hvalid hpipe
          rcases prepare_file_of_pipe hvalid hstep hpipe with hfile | ⟨⟨err, hfile⟩, hend⟩
          · have houtValid : (readRecords conf proto sizeBytes (s'.input.bytes.length + 1)
                s'.input conf.skip 0 0).input.Valid := (readRecords_input hvalid').1
            cases hout : readRecords conf proto sizeBytes (s'.input.bytes.length + 1) s'.input
                conf.skip 0 0 with
            | mk error input records =>
                rw [hout] at houtValid
                have hcall : ∀ seekable, prepare conf seekable proto s = .ok (s', sizeBytes) →
                    prototypeFprintf conf seekable proto s =
                      (error, { s' with input := input }, records) := by
                  intro seekable hprep
                  simp only [prototypeFprintf, hprep, hout]
                cases error with
                | some err =>
                    simp only [printPrototypes, hcall false hpipe, hcall true hfile]
                    exact ⟨List.prefix_rfl, fun _ => rfl⟩
                | none =>
                    obtain ⟨hinitial, heq⟩ :=
                      @ih { s' with input := input } houtValid (hrest _ _ (hcall false hpipe))
                    simp only [printPrototypes, hcall false hpipe, hcall true hfile]
                    exact ⟨(List.prefix_append_right_inj _).mpr hinitial,
                      fun h => congrArg (records ++ ·) (heq h)⟩
          · have hempty : (printPrototypes conf false (proto :: protos) s).2 = [] := by
              have hloop : readRecords conf proto sizeBytes (s'.input.bytes.length + 1) s'.input
                  conf.skip 0 0 = { error := none, input := s'.input, records := [] } :=
                readRecords_at_end hend
              simp [printPrototypes, prototypeFprintf, hpipe, hloop,
                printPrototypes_at_end hvalid' hend]
            have hfileEmpty : (printPrototypes conf true (proto :: protos) s).2 = [] := by
              simp [printPrototypes, prototypeFprintf, hfile]
            unfold Agrees
            rw [hempty, hfileEmpty]
            exact ⟨List.prefix_rfl, fun _ => rfl⟩

/-- The session at the start of a run. -/
def Session.start (headerType : Option HeaderType) (bytes : List UInt8) : Session where
  header := headerType.map fun type => { type := type, readAlready := false, bytes := [] }
  input := { bytes := bytes, pos := 0 }

/-- If every seek of the run starts from the position that it counts from, a pipe is printed as
a file with the same bytes is, or up to an error as a part of that. -/
theorem pipe_agrees_with_file (conf : InputConf) (headerType : Option HeaderType)
    (bytes : List UInt8) (protos : List Prototype)
    (hsteps : SeeksInStep conf protos (Session.start headerType bytes)) :
    Agrees (printPrototypes conf false protos (Session.start headerType bytes))
      (printPrototypes conf true protos (Session.start headerType bytes)) :=
  printPrototypes_agrees (Nat.zero_le _) hsteps

end Runs

/-- `--seek_bytes 1 --size_bytes 1` -/
def oneByteConf : InputConf where
  headerType := none
  range := none
  seekBytes := some (.literal 1)
  sizeBytes := some (.literal 1)
  skip := 0
  count := 0

/-- A prototype of a type of one byte. -/
def byteProto (name : String) : Prototype where
  name := name
  range := none
  size := 1
  sizeofMember := none
  filter := none

/-- A header of two bytes, with the offset and the size of a range. -/
def rangeHeader : HeaderType where
  name := "h"
  size := 2
  member name := if name = "r.offset" then some ⟨0, 1⟩ else if name = "r.size" then some ⟨1, 1⟩ else none

/-- `--header`, with nothing to seek to. -/
def headerConf : InputConf where
  headerType := some "h"
  range := none
  seekBytes := none
  sizeBytes := none
  skip := 0
  count := 0

/-- The first prototype starts at the offset of its range, and the second one does not seek and
goes on behind it. -/
theorem pipe_agrees_with_file_range :
    let protos := [{ byteProto "a" with range := some "r" }, byteProto "b"]
    let start := Session.start (some rangeHeader) [3, 1, 7, 8, 9, 10]
    printPrototypes headerConf false protos start =
        (none, [{ prototype := "a", offset := 3, bytes := [8], realSizeof := 1 },
          { prototype := "b", offset := 4, bytes := [9], realSizeof := 1 },
          { prototype := "b", offset := 5, bytes := [10], realSizeof := 1 }]) ∧
      Agrees (printPrototypes headerConf false protos start)
        (printPrototypes headerConf true protos start) := by
  refine ⟨by decide, pipe_agrees_with_file headerConf (some rangeHeader) [3, 1, 7, 8, 9, 10] _
    ⟨(seekInStep_iff (Nat.zero_le _)).mpr fun _ _ _ _ _ => rfl, fun s' records _ => ⟨?_, ?_⟩⟩⟩
  · intro consumed s'' target _ htarget
    cases htarget
  · exact fun _ _ _ => trivial

/-- The second of two prototypes starts as far from where the first one has stopped. -/
theorem pipe_disagrees_with_file_twice :
    ¬Agrees
      (printPrototypes oneByteConf false [byteProto "a", byteProto "b"]
        (Session.start none [1, 2, 3, 4]))
      (printPrototypes oneByteConf true [byteProto "a", byteProto "b"]
        (Session.start none [1, 2, 3, 4])) := by
  unfold Agrees
  decide

end Pahole.Prettify

import ConcurrentKV.WalAcceptance

/-! The `WriteAheadLog` object: its cached fields, and its operations under `io_mutex_`. -/
namespace ConcurrentKV
open ByteCodec OpLog

theorem eq_ok_of_toOption {ε α : Type*} {x : Except ε α} {a : α} (h : x.toOption = some a) :
    x = .ok a := by
  cases x with
  | error e => cases h
  | ok b =>
    obtain rfl := Option.some.inj h
    rfl

inductive DurabilityPolicy where
  | buffered
  | sync
  | groupCommit
  deriving DecidableEq, Repr

/-- The fields of a `WriteAheadLog` with the bytes at its path. `outputOpen` says
whether `output_` can be written; `failure` is `failure_`. -/
structure WriteAheadLog where
  file : Bytes
  policy : DurabilityPolicy
  maxBatch : ℕ
  outputOpen : Bool := true
  legacyV2 : Bool := false
  headerPending : Bool := false
  formatValid : Bool := true
  needsRecovery : Bool := false
  generation : ℕ := 1
  nextSequence : ℕ := 1
  failure : Option WalError := none
  deriving DecidableEq, Repr

def kMaxUint64 : ℕ := 2^64-1
def kMaxUint32 : ℕ := 2^32-1

/-- The constructor, on the bytes found at the path. -/
def openWal (host : ByteOrder) (file : Bytes) (policy : DurabilityPolicy) (maxBatch : ℕ) :
    Except WalError WriteAheadLog :=
  let wal : WriteAheadLog := { file := file, policy := policy, maxBatch := maxBatch }
  if maxBatch = 0 ∨ maxBatch > 4096 then .error .badMaxBatch
  else if file.length = 0 then .ok { wal with headerPending := true }
  else if magicPrefix file then
    let header := parseHeader file wal.generation
    if kWalMagic.length ≤ file.length ∧ header.1 = true then
      match replayFromDetailed host file 0 ∅ with
      | .error e => .error e
      | .ok (replay,_) =>
        if replay.lastSequence = kMaxUint64 then .error .sequenceExhausted
        else .ok { wal with
          generation := header.2
          needsRecovery := decide (replay.status ≠ .cleanEof)
          nextSequence := replay.lastSequence+1 }
    else .ok { wal with formatValid := false, generation := 0 }
  else match replayFromDetailed host file 0 ∅ with
    | .error e => .error e
    | .ok (replay,_) => .ok { wal with
        legacyV2 := true
        generation := 0
        needsRecovery := decide (replay.status ≠ .cleanEof) }

def checkedRecordLength (recordLength : ℕ) : Except WalError ℕ :=
  if recordLength > kMaxRecordLength then .error .recordTooLarge else .ok (recordLength%2^32)

def checkedSize (bytes : Bytes) (tooLarge : WalError) : Except WalError ℕ :=
  if bytes.length > kMaxUint32 then .error tooLarge else .ok bytes.length

namespace WriteAheadLog

variable (host : ByteOrder) (wal : WriteAheadLog)

/-- Size fields are native in a v2 log and little-endian otherwise. -/
def appendSize (bytes : Bytes) (size : ℕ) : Bytes :=
  if wal.legacyV2 then appendPrimitive host 4 bytes size else appendLe32 bytes size

/-- The payload `AppendSet` or `AppendDelete` builds, after its size checks. -/
def payload : WalRecord → Except WalError Bytes
  | .set key value => do
    let keySize ← checkedSize key .keyTooLarge
    let valueSize ← checkedSize value .valueTooLarge
    let _ ← checkedRecordLength (1+4+keySize+4+valueSize+(if wal.legacyV2 then 0 else 8))
    let bytes := wal.appendSize host (appendPrimitive host 1 [] kWalOpSet) keySize ++ key
    return wal.appendSize host bytes valueSize ++ value
  | .delete key => do
    let keySize ← checkedSize key .keyTooLarge
    let _ ← checkedRecordLength (1+4+keySize+(if wal.legacyV2 then 0 else 8))
    return wal.appendSize host (appendPrimitive host 1 [] kWalOpDelete) keySize ++ key

/-- `PrepareFrame`. In v3 the checksum and the sequence number are still zero. -/
def prepareFrame (payload : Bytes) : Except WalError Bytes := do
  let length ← checkedRecordLength (payload.length+(if wal.legacyV2 then 0 else 8))
  if wal.legacyV2 then
    return appendPrimitive host 4 (appendPrimitive host 4 [] length) (crc32 payload).toNat ++
      payload
  else return appendLe64 (appendLe32 (appendLe32 [] length) 0) 0 ++ payload

/-- What a call of `AppendSet` or `AppendDelete` does before it takes a lock, as one step. The
source reads `legacy_v2_` for the payload and again in `PrepareFrame`; here both reads see one
value. -/
def prepare (op : WalRecord) : Except WalError Bytes := do
  let payload ← wal.payload host op
  wal.prepareFrame host payload

/-- In-place writes of `bytes` from position `i` on. A write past the end is undefined
in the source and dropped here. -/
def overwrite : Bytes → ℕ → Bytes → Bytes
  | frame, _, [] => frame
  | frame, i, b :: bytes => overwrite (frame.set i b) (i+1) bytes

/-- `FinalizeFrameLocked`. -/
def finalizeFrameLocked (frame : Bytes) : Except WalError (Bytes × WriteAheadLog) :=
  if wal.legacyV2 then .ok (frame, wal)
  else if wal.nextSequence = kMaxUint64 then .error .sequenceExhausted
  else
    let frame := overwrite frame 8 (encode .little 8 wal.nextSequence)
    let checksum := (crc32 (frame.drop 8)).toNat
    .ok (overwrite frame 4 (encode .little 4 checksum),
      { wal with nextSequence := wal.nextSequence+1 })

/-- The bytes `EnsureHeaderLocked` writes. -/
def headerBytes : Bytes :=
  if wal.legacyV2 ∨ wal.headerPending = false then [] else makeHeader wal.generation

/-- `EnsureHeaderLocked`, when its write succeeds. -/
def ensureHeaderLocked : WriteAheadLog :=
  if wal.legacyV2 ∨ wal.headerPending = false then wal
  else { wal with file := wal.file ++ makeHeader wal.generation, headerPending := false }

/-- The frames of a batch, finalised in order and joined. -/
def finalizeFrames (wal : WriteAheadLog) : List Bytes → Except WalError (Bytes × WriteAheadLog)
  | [] => .ok ([], wal)
  | frame :: frames => do
    let (bytes,wal) ← wal.finalizeFrameLocked frame
    let (rest,wal) ← finalizeFrames wal frames
    return (bytes ++ rest, wal)

/-- The check every append makes under its lock. -/
def appendCheck : Except WalError Unit :=
  match wal.failure with
  | some e => .error e
  | none => if wal.formatValid = false ∨ wal.needsRecovery then .error .requiresRecovery else .ok ()

def failWith (e : WalError) : WriteAheadLog := { wal with failure := some e }

/-- The error of a frame that cannot be written. -/
def writeError : WalError := if wal.policy = .groupCommit then .batchWrite else .frameWrite

/-- `WriteFrameLocked`, and a batch of one of `WriterLoop`, when the file system does not
fail. A closed stream fails on the header first, if there is one to write. -/
def writeFrameLocked (frame : Bytes) : Except WalError Unit × WriteAheadLog :=
  if wal.headerBytes ≠ [] ∧ wal.outputOpen = false then (.error .headerWrite, wal)
  else
    let wal := wal.ensureHeaderLocked
    match wal.finalizeFrameLocked frame with
    | .error e => (.error e, wal)
    | .ok (bytes,wal) =>
      if wal.outputOpen then (.ok (), { wal with file := wal.file ++ bytes })
      else (.error wal.writeError, wal)

/-- `AppendPayload` behind `PrepareFrame`. An error raised while writing is kept in
`failure`. -/
def appendFrame (frame : Bytes) : Except WalError Unit × WriteAheadLog :=
  match wal.appendCheck with
  | .error e => (.error e, wal)
  | .ok () => match wal.writeFrameLocked frame with
    | (.error e, wal) => (.error e, wal.failWith e)
    | (.ok (), wal) => (.ok (), wal)

/-- `AppendSet` and `AppendDelete`. -/
def append (op : WalRecord) : Except WalError Unit × WriteAheadLog :=
  match wal.prepare host op with
  | .error e => (.error e, wal)
  | .ok frame => wal.appendFrame frame

/-- `CurrentOffset`. A closed stream passes the flush, and seeking it fails. -/
def currentOffset : Except WalError ℕ :=
  if wal.outputOpen then .ok wal.file.length else .error .seekOutput

/-- What `Clear` leaves: an empty file of the next generation. -/
def cleared : WriteAheadLog := { wal with
  file := []
  outputOpen := true
  generation := wal.generation+1
  nextSequence := 1
  legacyV2 := false
  headerPending := true
  formatValid := true
  needsRecovery := false }

/-- `Clear`, behind its fault hook. -/
def clear : Except WalError Unit × WriteAheadLog :=
  if wal.generation = kMaxUint64 then (.error .generationExhausted, wal) else (.ok (), wal.cleared)

def rotate : Except WalError Unit × WriteAheadLog := wal.clear

/-- `TruncateTo`, behind its fault hook. The stream is closed before the offset is
checked and the file is cut before what is left of it is. -/
def truncateTo (offset : ℕ) : Except WalError Unit × WriteAheadLog :=
  if wal.legacyV2 = false ∧ offset = 0 ∧ wal.generation = kMaxUint64 then
    (.error .generationExhausted, wal)
  else if offset > wal.file.length then (.error .truncatePastEof, { wal with outputOpen := false })
  else
    let cut : WriteAheadLog := { wal with file := wal.file.take offset, outputOpen := true }
    if wal.legacyV2 then (.ok (), { cut with needsRecovery := false })
    else if offset = 0 then (.ok (), { cut with
      generation := wal.generation+1
      nextSequence := 1
      headerPending := true
      formatValid := true
      needsRecovery := false })
    else match replayFromDetailed host cut.file 0 ∅ with
      | .error e => (.error e, cut)
      | .ok (replay,_) =>
        if replay.status ≠ .cleanEof ∨ replay.lastSequence = kMaxUint64 then
          (.error .truncateInvalidPrefix, cut)
        else (.ok (), { cut with nextSequence := replay.lastSequence+1, needsRecovery := false })

/-- `ReplayFromAndTruncate`. -/
def replayFromAndTruncate (offset : ℕ) (store : Store) :
    Except WalError (WalReplayResult × Store) × WriteAheadLog :=
  match replayFromDetailed host wal.file offset store with
  | .error e => (.error e, wal)
  | .ok (result,store) =>
    if result.status = .cleanEof then (.ok (result,store), wal)
    else match wal.truncateTo host result.lastGoodOffset with
      | (.error e, wal) => (.error e, wal)
      | (.ok (), wal) => (.ok ({ result with truncated := true }, store), wal)

section

variable {host wal} {offset : ℕ} {store store' : Store} {result : WalReplayResult}

theorem replayFromAndTruncate_clean
    (hr : replayFromDetailed host wal.file offset store = .ok (result,store'))
    (hst : result.status = .cleanEof) :
    wal.replayFromAndTruncate host offset store = (.ok (result,store'), wal) := by
  rw [replayFromAndTruncate, hr]
  exact if_pos hst

/-- What a replay that stops early leaves is what the truncation at its last good offset leaves. -/
theorem replayFromAndTruncate_cut
    (hr : replayFromDetailed host wal.file offset store = .ok (result,store'))
    (hst : result.status ≠ .cleanEof) :
    wal.replayFromAndTruncate host offset store =
      ((wal.truncateTo host result.lastGoodOffset).1.map
        fun _ => ({ result with truncated := true },store'),
      (wal.truncateTo host result.lastGoodOffset).2) := by
  rw [replayFromAndTruncate, hr]
  refine (if_neg hst).trans ?_
  generalize wal.truncateTo host result.lastGoodOffset = cut
  obtain ⟨answer,left⟩ := cut
  cases answer with
  | error e => rfl
  | ok => rfl

end

end WriteAheadLog

/-! ### The bytes of an append -/

namespace WriteAheadLog

variable (host : ByteOrder) (wal : WriteAheadLog)

/-- An append is in the current format of the object. -/
def portable : Bool := !wal.legacyV2

theorem overwrite_eq (pre old post bytes : Bytes) (h : bytes.length = old.length) :
    overwrite (pre ++ (old ++ post)) pre.length bytes = pre ++ (bytes ++ post) := by
  induction bytes generalizing pre old with
  | nil =>
    obtain rfl := List.length_eq_zero_iff.mp h.symm
    rfl
  | cons b bytes ih =>
    cases old with
    | nil => simp at h
    | cons o old =>
      have hset : (pre ++ (o :: old ++ post)).set pre.length b = (pre ++ [b]) ++ (old ++ post) := by
        simp [List.set_append_right]
      have hi := ih (pre ++ [b]) old (by simpa using h)
      rw [List.length_append, List.length_singleton] at hi
      rw [overwrite, hset, hi]
      simp

theorem payload_eq (op : WalRecord) :
    wal.payload host op = if RecordOk wal.portable op then
      .ok (payloadBytes (fieldOrder host wal.portable) op)
      else .error (if op.key.length > kMaxUint32 then .keyTooLarge else match op with
        | .set _ value => if value.length > kMaxUint32 then .valueTooLarge else .recordTooLarge
        | .delete _ => .recordTooLarge) := by
  have hsize (bytes : Bytes) (n : ℕ) : wal.appendSize host bytes n =
      bytes ++ encode (fieldOrder host wal.portable) 4 n := by
    cases hl : wal.legacyV2 <;>
      simp [appendSize, portable, fieldOrder, hl, appendPrimitive, appendLe32]
  have hop (v : ℕ) : appendPrimitive host 1 [] v = encode (fieldOrder host wal.portable) 1 v :=
    encode_one host _ v
  cases op with
  | set k v =>
    have hrec : 1+4+k.length+4+v.length+(if wal.legacyV2 then 0 else 8) =
        recordLength wal.portable (.set k v) := by
      cases hl : wal.legacyV2 <;> simp [recordLength, payloadLength, portable, hl] <;> omega
    simp only [payload, checkedSize, checkedRecordLength, recordOk_iff, Op.key]
    by_cases hk : k.length > kMaxUint32
    · have hbig : ¬recordLength wal.portable (.set k v) ≤ kMaxRecordLength := by
        simp only [recordLength, payloadLength, kMaxRecordLength, kMaxUint32] at hk ⊢
        omega
      simp [hk, hbig, bind, Except.bind]
    by_cases hv : v.length > kMaxUint32
    · have hbig : ¬recordLength wal.portable (.set k v) ≤ kMaxRecordLength := by
        simp only [recordLength, payloadLength, kMaxRecordLength, kMaxUint32] at hv ⊢
        omega
      simp [hk, hv, hbig, bind, Except.bind]
    by_cases hb : recordLength wal.portable (.set k v) ≤ kMaxRecordLength
    · simp [hk, hv, hb, hrec, bind, Except.bind, pure, Except.pure, hsize, hop, payloadBytes,
        Nat.not_lt.mpr hb]
    · simp [hk, hv, hb, hrec, bind, Except.bind, Nat.lt_of_not_le hb]
  | delete k =>
    have hrec : 1+4+k.length+(if wal.legacyV2 then 0 else 8) =
        recordLength wal.portable (.delete k) := by
      cases hl : wal.legacyV2
      · simp [recordLength, payloadLength, portable, hl]
        omega
      · simp [recordLength, payloadLength, portable, hl]
    simp only [payload, checkedSize, checkedRecordLength, recordOk_iff, Op.key]
    by_cases hk : k.length > kMaxUint32
    · have hbig : ¬recordLength wal.portable (.delete k : WalRecord) ≤ kMaxRecordLength := by
        simp only [recordLength, payloadLength, kMaxRecordLength, kMaxUint32] at hk ⊢
        omega
      simp [hk, hbig, bind, Except.bind]
    by_cases hb : recordLength wal.portable (.delete k : WalRecord) ≤ kMaxRecordLength
    · simp [hk, hb, hrec, bind, Except.bind, pure, Except.pure, hsize, hop, payloadBytes,
        Nat.not_lt.mpr hb]
    · simp [hk, hb, hrec, bind, Except.bind, Nat.lt_of_not_le hb]

/-- A frame as `PrepareFrame` leaves it: complete in v2, with zero checksum and sequence
number in v3. -/
def preparedFrame (host : ByteOrder) (portable : Bool) (op : WalRecord) : Bytes :=
  if portable then encode .little 4 (recordLength true op) ++ (encode .little 4 0 ++
    (encode .little 8 0 ++ payloadBytes .little op))
  else frameBytes host false 0 op

theorem prepare_of_ok {op : WalRecord} (hok : RecordOk wal.portable op) :
    wal.prepare host op = .ok (preparedFrame host wal.portable op) := by
  have hlt : recordLength wal.portable op < 2^32 := by
    have := hok.length_lt
    norm_num at this ⊢
    omega
  have hlen : payloadLength op+(if wal.legacyV2 then 0 else 8) = recordLength wal.portable op := by
    cases hl : wal.legacyV2
    · simp [recordLength, portable, hl]
      omega
    · simp [recordLength, portable, hl]
  have hmax : ¬recordLength wal.portable op > kMaxRecordLength := Nat.not_lt.mpr hok.2
  simp only [prepare, payload_eq, if_pos hok, prepareFrame, checkedRecordLength, bind, Except.bind,
    length_payloadBytes, hlen, if_neg hmax, Nat.mod_eq_of_lt hlt]
  cases hl : wal.legacyV2
  · simp [preparedFrame, portable, hl, pure, Except.pure, appendLe32, appendLe64, fieldOrder]
  · simp [preparedFrame, portable, hl, pure, Except.pure, appendPrimitive, frameBytes, recordBytes,
      recordLength, fieldOrder]

theorem prepare_of_oversized {op : WalRecord} (hok : ¬RecordOk wal.portable op) :
    ∃ e, wal.prepare host op = .error e := by
  simp only [prepare, payload_eq, if_neg hok, bind, Except.bind]
  exact ⟨_, rfl⟩

/-- Patching the sequence number and then the checksum in place, for any payload behind them. -/
theorem finalizeFrameLocked_v3 (length : ℕ) (payload : Bytes) (hv2 : wal.legacyV2 = false)
    (hn : wal.nextSequence < kMaxUint64) :
    wal.finalizeFrameLocked (encode .little 4 length ++ (encode .little 4 0 ++
        (encode .little 8 0 ++ payload))) =
      .ok (encode .little 4 length ++
        (encode .little 4 (crc32 (encode .little 8 wal.nextSequence ++ payload)).toNat ++
          (encode .little 8 wal.nextSequence ++ payload)),
        { wal with nextSequence := wal.nextSequence+1 }) := by
  -- bytes 8 to 15 first, then the checksum over everything from byte 8 on
  have hpre : (encode .little 4 length ++ encode .little 4 0).length = 8 := by simp
  have hseq := overwrite_eq (encode .little 4 length ++ encode .little 4 0)
    (encode .little 8 0) payload (encode .little 8 wal.nextSequence) (by simp)
  rw [hpre, List.append_assoc] at hseq
  have hdrop : (encode .little 4 length ++ (encode .little 4 0 ++
      (encode .little 8 wal.nextSequence ++ payload))).drop 8 =
      encode .little 8 wal.nextSequence ++ payload := by
    rw [← List.append_assoc, List.drop_left' hpre]
  have hcrc := overwrite_eq (encode .little 4 length) (encode .little 4 0)
    (encode .little 8 wal.nextSequence ++ payload)
    (encode .little 4 (crc32 (encode .little 8 wal.nextSequence ++ payload)).toNat) (by simp)
  rw [length_encode] at hcrc
  rw [finalizeFrameLocked, if_neg (by simp [hv2]), if_neg (Nat.ne_of_lt hn)]
  simp only [hseq, List.append_assoc, hdrop, hcrc]

/-- Patching the sequence number and the checksum in place gives the documented frame. -/
theorem finalizeFrameLocked_preparedFrame (op : WalRecord)
    (hn : wal.portable = true → wal.nextSequence < kMaxUint64) :
    wal.finalizeFrameLocked (preparedFrame host wal.portable op) =
      .ok (frameBytes host wal.portable wal.nextSequence op,
        { wal with
          nextSequence := if wal.portable then wal.nextSequence+1 else wal.nextSequence }) := by
  by_cases hl : wal.legacyV2 = true
  · have hp : wal.portable = false := by simp [portable, hl]
    rw [finalizeFrameLocked, if_pos hl, hp]
    rfl
  have hp : wal.portable = true := by simp [portable, hl]
  rw [hp, preparedFrame, if_pos rfl,
    finalizeFrameLocked_v3 wal _ _ (by simpa using hl) (hn hp)]
  simp [frameBytes, fieldOrder, recordBytes, recordLength]

/-- A finalised batch is a run of consecutive frames. -/
theorem finalizeFrames_preparedFrames (wal : WriteAheadLog) (ops : List WalRecord)
    (hn : wal.portable = true → wal.nextSequence+ops.length ≤ kMaxUint64) :
    wal.finalizeFrames (ops.map (preparedFrame host wal.portable)) =
      .ok (framesFrom host wal.portable wal.nextSequence ops, { wal with
        nextSequence :=
          if wal.portable then wal.nextSequence+ops.length else wal.nextSequence }) := by
  induction ops generalizing wal with
  | nil => simp [finalizeFrames, framesFrom]
  | cons op ops ih =>
    have hlt : wal.portable = true → wal.nextSequence < kMaxUint64 := by
      intro hp
      have := hn hp
      rw [List.length_cons] at this
      omega
    let wal' : WriteAheadLog := { wal with
      nextSequence := if wal.portable then wal.nextSequence+1 else wal.nextSequence }
    have hi := ih wal' (fun hp => by
      have hle := hn hp
      have hnext : wal'.nextSequence = wal.nextSequence+1 := if_pos hp
      rw [List.length_cons] at hle
      omega)
    have hp' : wal'.portable = wal.portable := rfl
    rw [hp'] at hi
    rw [List.map_cons, finalizeFrames, finalizeFrameLocked_preparedFrame host wal op hlt]
    change (finalizeFrames wal' (ops.map (preparedFrame host wal.portable)) >>= fun p =>
      pure (frameBytes host wal.portable wal.nextSequence op ++ p.1, p.2)) = _
    rw [hi]
    change Except.ok (frameBytes host wal.portable wal.nextSequence op ++
      framesFrom host wal.portable wal'.nextSequence ops, _) = _
    cases hp : wal.portable with
    | false => simp [framesFrom, wal', hp, framesFrom_v2 host wal.nextSequence (wal.nextSequence+1)]
    | true => simp [framesFrom, wal', hp, Nat.add_assoc, Nat.add_comm 1]

/-- The object after a batch of operations: the header if it is still pending, then
consecutive frames, and the counters moved past them. -/
def appended (wal : WriteAheadLog) (ops : List WalRecord) : WriteAheadLog := { wal with
  file := wal.file ++ (wal.headerBytes ++ framesFrom host wal.portable wal.nextSequence ops)
  headerPending := wal.legacyV2 && wal.headerPending
  nextSequence := if wal.portable then wal.nextSequence+ops.length else wal.nextSequence }

@[simp] theorem appended_portable (ops : List WalRecord) :
    (wal.appended host ops).portable = wal.portable := rfl

@[simp] theorem appended_headerBytes (ops : List WalRecord) :
    (wal.appended host ops).headerBytes = [] := by
  cases hl : wal.legacyV2 <;> simp [headerBytes, appended, hl]

theorem ensureHeaderLocked_eq : wal.ensureHeaderLocked = { wal with
    file := wal.file ++ wal.headerBytes
    headerPending := wal.legacyV2 && wal.headerPending } := by
  rcases wal with ⟨file,_,_,_,legacy,pending,_,_,_,_,_⟩
  cases legacy <;> cases pending <;> simp [ensureHeaderLocked, headerBytes]

/-- An admitted append in the size limits writes its frame at the end of the file. -/
theorem append_of_ok {op : WalRecord} (hadm : wal.appendCheck = .ok ())
    (hopen : wal.outputOpen = true)
    (hok : RecordOk wal.portable op) (hn : wal.portable = true → wal.nextSequence < kMaxUint64) :
    wal.append host op = (.ok (), wal.appended host [op]) := by
  have hp : wal.ensureHeaderLocked.portable = wal.portable := by
    rw [ensureHeaderLocked_eq]
    rfl
  have hseq : wal.ensureHeaderLocked.nextSequence = wal.nextSequence := by
    rw [ensureHeaderLocked_eq]
  have hfin := finalizeFrameLocked_preparedFrame host wal.ensureHeaderLocked op
    (by rwa [hp, hseq])
  rw [hp, hseq] at hfin
  simp only [append, prepare_of_ok host wal hok, appendFrame, hadm, writeFrameLocked, hopen,
    Bool.true_eq_false, and_false, if_false, hfin]
  simp [ensureHeaderLocked_eq, hopen, appended, framesFrom]

theorem appendCheck_ok_iff : wal.appendCheck = .ok () ↔
    wal.failure = none ∧ wal.formatValid = true ∧ wal.needsRecovery = false := by
  unfold appendCheck
  cases wal.failure with
  | some e => simp
  | none =>
    cases wal.formatValid <;> cases wal.needsRecovery <;> simp

theorem append_of_refused {op : WalRecord} {e : WalError} (hadm : wal.appendCheck = .error e) :
    ∃ e, wal.append host op = (.error e, wal) := by
  rw [append]
  cases hp : wal.prepare host op with
  | error e => exact ⟨e, rfl⟩
  | ok frame => exact ⟨e, by simp only [appendFrame, hadm]⟩

theorem append_of_oversized {op : WalRecord} (hok : ¬RecordOk wal.portable op) :
    ∃ e, wal.append host op = (.error e, wal) := by
  obtain ⟨e,he⟩ := prepare_of_oversized host wal hok
  exact ⟨e, by rw [append, he]⟩

/-- Finalising a frame changes at most the next sequence number, and in v2 nothing. -/
theorem finalizeFrameLocked_cases (frame : Bytes) :
    (∃ e, wal.finalizeFrameLocked frame = .error e ∧ wal.legacyV2 = false) ∨
    ∃ bytes n, wal.finalizeFrameLocked frame = .ok (bytes, { wal with nextSequence := n }) ∧
      (wal.legacyV2 = true → bytes = frame) := by
  unfold finalizeFrameLocked
  split_ifs with hv2 hmax
  · exact .inr ⟨frame, wal.nextSequence, rfl, fun _ => rfl⟩
  · exact .inl ⟨_, rfl, by simpa using hv2⟩
  · exact .inr ⟨_, _, rfl, fun h => absurd h hv2⟩

/-- A write puts the pending header first, and then the frame unless its number is used up. -/
theorem writeFrameLocked_cases (frame : Bytes) (hopen : wal.outputOpen = true) :
    ∃ r x n, wal.writeFrameLocked frame = (r, { wal with
        file := wal.file ++ (wal.headerBytes ++ x)
        headerPending := wal.legacyV2 && wal.headerPending
        nextSequence := n }) ∧ (wal.legacyV2 = true → x = frame) := by
  have hclosed : ¬(wal.headerBytes ≠ [] ∧ wal.outputOpen = false) := by simp [hopen]
  have hensure := wal.ensureHeaderLocked_eq
  rw [writeFrameLocked, if_neg hclosed]
  rcases wal.ensureHeaderLocked.finalizeFrameLocked_cases frame with ⟨e,hfin,hv2⟩ | ⟨x,n,hfin,hv2⟩
  · refine ⟨.error e, [], wal.nextSequence, ?_, fun h => ?_⟩
    · simp only [hfin]
      rw [hensure, List.append_nil]
    · rw [hensure] at hv2
      rw [show wal.legacyV2 = false from hv2] at h
      cases h
  · rw [hensure] at hv2
    refine ⟨.ok (), x, n, ?_, hv2⟩
    simp only [hfin]
    simp only [hensure, hopen, if_true, List.append_assoc]

/-- An append goes no further than its checks, or writes. -/
theorem append_cases (op : WalRecord) (hopen : wal.outputOpen = true) :
    (wal.append host op).2 = wal ∨ ∃ x n failure, (wal.append host op).2 = { wal with
        file := wal.file ++ (wal.headerBytes ++ x)
        headerPending := wal.legacyV2 && wal.headerPending
        nextSequence := n
        failure := failure } ∧
      (wal.legacyV2 = true → x = frameBytes host false 0 op ∧ RecordOk false op) := by
  by_cases hok : RecordOk wal.portable op
  swap
  · obtain ⟨e,he⟩ := wal.append_of_oversized host hok
    exact .inl (by rw [he])
  cases hadm : wal.appendCheck with
  | error e =>
    obtain ⟨e',he⟩ := @append_of_refused host wal op e hadm
    exact .inl (by rw [he])
  | ok =>
    obtain ⟨r,x,n,hw,hx⟩ := wal.writeFrameLocked_cases (preparedFrame host wal.portable op) hopen
    have hlegacy (hl : wal.legacyV2 = true) :
        x = frameBytes host false 0 op ∧ RecordOk false op := by
      have hp : wal.portable = false := by simp [portable, hl]
      rw [hp] at hok hx
      exact ⟨hx hl, hok⟩
    simp only [append, prepare_of_ok host wal hok, appendFrame, hadm, hw]
    cases r with
    | error e => exact .inr ⟨x, n, some e, rfl, hlegacy⟩
    | ok => exact .inr ⟨x, n, wal.failure, rfl, hlegacy⟩

/-- Nothing is acknowledged while the stream is closed. -/
theorem append_of_closed (op : WalRecord) (hclosed : wal.outputOpen = false) :
    ∃ e wal', wal.append host op = (.error e, wal') := by
  rw [append]
  cases wal.prepare host op with
  | error e => exact ⟨e, wal, rfl⟩
  | ok frame =>
    dsimp only
    rw [appendFrame]
    cases wal.appendCheck with
    | error e => exact ⟨e, wal, rfl⟩
    | ok =>
      dsimp only
      rw [writeFrameLocked]
      split_ifs with hheader
      · exact ⟨_, _, rfl⟩
      have hensure : wal.ensureHeaderLocked.outputOpen = false := by
        rw [ensureHeaderLocked_eq]
        exact hclosed
      rcases wal.ensureHeaderLocked.finalizeFrameLocked_cases frame with
        ⟨e,hfin,-⟩ | ⟨x,n,hfin,-⟩
      · simp only [hfin]
        exact ⟨_, _, rfl⟩
      · simp only [hfin, hensure, Bool.false_eq_true, if_false]
        exact ⟨_, _, rfl⟩

/-- An append that finds the sequence numbers used up writes no frame. -/
theorem append_of_exhausted {op : WalRecord} (hadm : wal.appendCheck = .ok ())
    (hok : RecordOk wal.portable op) (hv2 : wal.legacyV2 = false)
    (hseq : wal.nextSequence = kMaxUint64)
    (hhead : wal.headerPending = false ∨ wal.outputOpen = true) :
    wal.append host op =
      (.error .sequenceExhausted, wal.ensureHeaderLocked.failWith .sequenceExhausted) := by
  have hheader : ¬(wal.headerBytes ≠ [] ∧ wal.outputOpen = false) := by
    rcases hhead with hpend | hopen
    · simp [headerBytes, hpend]
    · simp [hopen]
  simp [append, prepare_of_ok host wal hok, appendFrame, hadm, writeFrameLocked, hheader,
    finalizeFrameLocked, ensureHeaderLocked_eq, hv2, hseq]

/-- A truncation, whether it succeeds or throws, only shortens the file and never takes back
a failure. -/
theorem truncateTo_keeps (host : ByteOrder) (wal : WriteAheadLog) (offset : ℕ) :
    (wal.truncateTo host offset).2.failure = wal.failure ∧
    (wal.truncateTo host offset).2.policy = wal.policy ∧
    (wal.truncateTo host offset).2.maxBatch = wal.maxBatch ∧
    (wal.truncateTo host offset).2.file <+: wal.file := by
  unfold truncateTo
  dsimp only
  repeat' split
  all_goals first
    | exact ⟨rfl, rfl, rfl, List.prefix_rfl⟩
    | exact ⟨rfl, rfl, rfl, List.take_prefix _ _⟩

end WriteAheadLog

end ConcurrentKV

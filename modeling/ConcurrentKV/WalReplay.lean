import ConcurrentKV.WalFormat

/-! Replay of a log file, `ReplayFromDetailed` of `wal.cpp`. File offsets and
operation counts are natural numbers, since a file is far shorter than 2^64 bytes;
sequence numbers wrap as the 64-bit fields they are. -/
namespace ConcurrentKV
open ByteCodec OpLog

structure WalReplayResult where
  appliedOperations : ℕ := 0
  status : WalReplayStatus := .cleanEof
  startOffset : ℕ := 0
  lastGoodOffset : ℕ := 0
  stopOffset : ℕ := 0
  generation : ℕ := 0
  lastSequence : ℕ := 0
  truncated : Bool := false
  deriving DecidableEq, Repr

/-- `std::numeric_limits<std::streamoff>::max()`. -/
def kMaxStreamoff : ℕ := 2^63-1

/-- `read_framing_u32`: the value and the cursor behind it, or the result to stop with. -/
def readFramingU32 (host : ByteOrder) (file : Bytes) (cursor : ℕ) (result : WalReplayResult)
    (portable : Bool) : Except WalReplayResult (ℕ × ℕ) :=
  let bytes := (file.drop cursor).take 4
  if bytes.length = 0 then .error { result with status := .cleanEof, stopOffset := cursor }
  else if bytes.length ≠ 4 then
    .error { result with status := .partialRecord, stopOffset := cursor }
  else .ok (decode (fieldOrder host portable) bytes, cursor+4)

structure ReplayState where
  cursor : ℕ
  result : WalReplayResult
  store : Store

/-- The sequence check of the replay loop; `offset` is where the replay began. -/
def sequenceRejected (offset : ℕ) (result : WalReplayResult) (sequence : ℕ) : Bool :=
  sequence == 0 ||
  (result.appliedOperations == 0 && offset == kHeaderLength && sequence != 1) ||
  (result.appliedOperations != 0 && sequence != (result.lastSequence+1)%2^64)

/-- One iteration of the replay loop: the next state, or the result it breaks with. -/
def replayFrame (host : ByteOrder) (file : Bytes) (portable : Bool) (offset : ℕ)
    (st : ReplayState) : Except WalReplayResult ReplayState :=
  let recordStart := st.cursor
  let stop (status : WalReplayStatus) : WalReplayResult :=
    { st.result with status := status, stopOffset := recordStart }
  match readFramingU32 host file st.cursor st.result portable with
  | .error result => .error result
  | .ok (recordLength,cursor) =>
    if recordLength = 0 ∨ recordLength > kMaxRecordLength then .error (stop .invalidLength)
    else match readFramingU32 host file cursor st.result portable with
    | .error _ => .error (stop .partialRecord)
    | .ok (expectedChecksum,cursor) =>
      let record := (file.drop cursor).take recordLength
      if record.length ≠ recordLength then .error (stop .partialRecord)
      else if (crc32 record).toNat ≠ expectedChecksum then .error (stop .checksumMismatch)
      else match parseRecord host record portable with
      | .error status => .error (stop status)
      | .ok (parsed,sequence) =>
        if portable && sequenceRejected offset st.result sequence then
          .error (stop .invalidSequence)
        else
          let cursor := cursor+record.length
          .ok { cursor := cursor
                store := applyRecord parsed st.store
                result := { st.result with
                  appliedOperations := st.result.appliedOperations+1
                  lastSequence := if portable then sequence else st.result.lastSequence
                  lastGoodOffset := cursor
                  stopOffset := cursor } }

theorem readFramingU32_ok {host : ByteOrder} {file : Bytes} {cursor : ℕ} {result : WalReplayResult}
    {portable : Bool} {v c : ℕ} (h : readFramingU32 host file cursor result portable = .ok (v,c)) :
    consumeUint (fieldOrder host portable) 4 file cursor = some (v,c) := by
  unfold readFramingU32 at h
  dsimp only at h
  split at h
  · cases h
  split at h
  · cases h
  rename_i h0 h4
  obtain ⟨rfl,rfl⟩ := Prod.mk.inj (Except.ok.inj h)
  rw [List.length_take, List.length_drop] at h4
  rw [consumeUint, if_neg (by omega)]

/-- An accepted frame moves the cursor over eight bytes of framing and a nonempty record. -/
theorem replayFrame_cursor_lt {host : ByteOrder} {file : Bytes} {portable : Bool} {offset : ℕ}
    {st st' : ReplayState} (h : replayFrame host file portable offset st = .ok st') :
    st.cursor < st'.cursor ∧ st'.cursor ≤ file.length := by
  unfold replayFrame at h
  dsimp only at h
  split at h
  · cases h
  rename_i len c1 h1
  split at h
  · cases h
  rename_i hlen
  split at h
  · cases h
  rename_i crc c2 h2
  split at h
  · cases h
  rename_i hrec
  split at h
  · cases h
  split at h
  · cases h
  split at h
  · cases h
  obtain rfl := Except.ok.inj h
  obtain ⟨_,_,rfl,_⟩ := (consumeUint_eq_some_iff ..).mp (readFramingU32_ok h1)
  obtain ⟨_,_,rfl,_⟩ := (consumeUint_eq_some_iff ..).mp (readFramingU32_ok h2)
  rw [List.length_take, List.length_drop] at hrec ⊢
  dsimp only
  omega

def replayLoop (host : ByteOrder) (file : Bytes) (portable : Bool) (offset : ℕ)
    (st : ReplayState) : WalReplayResult × Store :=
  match _h : replayFrame host file portable offset st with
  | .error result => (result, st.store)
  | .ok st' => replayLoop host file portable offset st'
termination_by file.length-st.cursor
decreasing_by
  have hc := replayFrame_cursor_lt _h
  omega

theorem replayLoop_of_error {host : ByteOrder} {file : Bytes} {portable : Bool} {offset : ℕ}
    {st : ReplayState} {r : WalReplayResult}
    (h : replayFrame host file portable offset st = .error r) :
    replayLoop host file portable offset st = (r, st.store) := by
  rw [replayLoop]
  split
  · rename_i r' hr
    rw [h] at hr
    rw [Except.error.inj hr]
  · rename_i st' hr
    rw [h] at hr
    cases hr

theorem replayLoop_of_ok {host : ByteOrder} {file : Bytes} {portable : Bool} {offset : ℕ}
    {st st' : ReplayState} (h : replayFrame host file portable offset st = .ok st') :
    replayLoop host file portable offset st = replayLoop host file portable offset st' := by
  conv_lhs => rw [replayLoop]
  split
  · rename_i r hr
    rw [h] at hr
    cases hr
  · rename_i u hr
    rw [h] at hr
    rw [Except.ok.inj hr]

/-- Whether a nonempty file starts like a v3 log; a short file may match part of the magic. -/
def magicPrefix (file : Bytes) : Bool := file.take kWalMagic.length == kWalMagic.take file.length

inductive WalError where
  | keyTooLarge
  | valueTooLarge
  | recordTooLarge
  | badMaxBatch
  | sequenceExhausted
  | generationExhausted
  | requiresRecovery
  | headerWrite
  | frameWrite
  | batchWrite
  | sync
  | faultHook
  | seekOutput
  | offsetTooLarge
  | truncatePastEof
  | truncateInvalidPrefix
  deriving DecidableEq, Repr

/-- `ReplayFromDetailed` on the current bytes of the log file. -/
def replayFromDetailed (host : ByteOrder) (file : Bytes) (offset : ℕ) (store : Store) :
    Except WalError (WalReplayResult × Store) :=
  if offset > kMaxStreamoff then .error .offsetTooLarge
  else
    let result : WalReplayResult :=
      { startOffset := offset, lastGoodOffset := offset, stopOffset := offset }
    if file.length = 0 then .ok (result, store)
    else if magicPrefix file then
      let header := parseHeader file 0
      let result := { result with generation := header.2 }
      if file.length < kWalMagic.length ∨ header.1 = false ∨
          (offset ≠ 0 ∧ offset < kHeaderLength) then
        .ok ({ result with status := .invalidHeader, lastGoodOffset := 0, stopOffset := 0 }, store)
      else
        let offset := if offset = 0 then kHeaderLength else offset
        .ok (replayLoop host file true offset
          ⟨offset, { result with lastGoodOffset := offset, stopOffset := offset }, store⟩)
    else .ok (replayLoop host file false offset ⟨offset, result, store⟩)

end ConcurrentKV

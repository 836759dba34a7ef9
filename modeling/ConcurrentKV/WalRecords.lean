import ConcurrentKV.WalReplay

/-! The bytes of single records and frames, and what the parser makes of them. -/
namespace ConcurrentKV
open ByteCodec OpLog

def payloadBytes (order : ByteOrder) : WalRecord → Bytes
  | .set k v => encode order 1 kWalOpSet ++ (encode order 4 k.length ++ (k ++
      (encode order 4 v.length ++ v)))
  | .delete k => encode order 1 kWalOpDelete ++ (encode order 4 k.length ++ k)

/-- A v3 record carries its sequence number before the payload, a v2 record has none. -/
def recordBytes (host : ByteOrder) (portable : Bool) (sequence : ℕ) (op : WalRecord) : Bytes :=
  (if portable then encode .little 8 sequence else []) ++ payloadBytes (fieldOrder host portable) op

def frameBytes (host : ByteOrder) (portable : Bool) (sequence : ℕ) (op : WalRecord) : Bytes :=
  encode (fieldOrder host portable) 4 (recordBytes host portable sequence op).length ++
    (encode (fieldOrder host portable) 4 (crc32 (recordBytes host portable sequence op)).toNat ++
      recordBytes host portable sequence op)

/-- Consecutive frames, the first one with the given sequence number. -/
def framesFrom (host : ByteOrder) (portable : Bool) : ℕ → List WalRecord → Bytes
  | _, [] => []
  | s, op :: ops => frameBytes host portable s op ++ framesFrom host portable (s+1) ops

def payloadLength : WalRecord → ℕ
  | .set k v => 9+k.length+v.length
  | .delete k => 5+k.length

def recordLength (portable : Bool) (op : WalRecord) : ℕ :=
  (if portable then 8 else 0)+payloadLength op

/-- The record length is one that replay accepts. -/
def RecordOk (portable : Bool) (op : WalRecord) : Prop :=
  1 ≤ recordLength portable op ∧ recordLength portable op ≤ kMaxRecordLength

instance (portable : Bool) (op : WalRecord) : Decidable (RecordOk portable op) :=
  inferInstanceAs (Decidable (_ ∧ _))

@[simp] theorem length_payloadBytes (order : ByteOrder) (op : WalRecord) :
    (payloadBytes order op).length = payloadLength op := by
  cases op <;> simp [payloadBytes, payloadLength] <;> omega

@[simp] theorem length_recordBytes (host : ByteOrder) (portable : Bool) (s : ℕ) (op : WalRecord) :
    (recordBytes host portable s op).length = recordLength portable op := by
  cases portable <;> simp [recordBytes, recordLength]

@[simp] theorem length_frameBytes (host : ByteOrder) (portable : Bool) (s : ℕ) (op : WalRecord) :
    (frameBytes host portable s op).length = 8+recordLength portable op := by
  simp [frameBytes]
  omega

theorem recordLength_pos (portable : Bool) (op : WalRecord) : 5 ≤ recordLength portable op := by
  cases op <;> cases portable <;> simp [recordLength, payloadLength] <;> omega

theorem recordOk_iff (portable : Bool) (op : WalRecord) :
    RecordOk portable op ↔ recordLength portable op ≤ kMaxRecordLength := by
  have h := recordLength_pos portable op
  exact ⟨And.right, fun hl => ⟨by omega, hl⟩⟩

theorem RecordOk.key_lt {portable : Bool} {op : WalRecord} (h : RecordOk portable op) :
    op.key.length < 256^4 := by
  have hl := h.2
  cases op <;> simp only [recordLength, payloadLength, kMaxRecordLength, Op.key] at hl ⊢ <;> omega

theorem RecordOk.value_lt {portable : Bool} {k v : Bytes} (h : RecordOk portable (.set k v)) :
    v.length < 256^4 := by
  have hl := h.2
  simp only [recordLength, payloadLength, kMaxRecordLength] at hl
  omega

/-- Reading a field that the bytes at `i` start with. -/
theorem consumeUint_of_drop {order : ByteOrder} {w v i : ℕ} {bs rest : Bytes} (hv : v < 256^w)
    (hi : i ≤ bs.length) (hd : bs.drop i = encode order w v ++ rest) :
    consumeUint order w bs i = some (v,i+w) ∧ i+w ≤ bs.length ∧ bs.drop (i+w) = rest := by
  have hrest : bs.drop (i+w) = rest := by
    rw [← List.drop_drop, hd, List.drop_left' (length_encode order w v)]
  have hlen := congrArg List.length hd
  rw [List.length_append, length_encode, List.length_drop] at hlen
  refine ⟨(consumeUint_eq_some_iff ..).mpr ⟨hv, hi, rfl, ?_⟩, by omega, hrest⟩
  rw [hrest, hd]

theorem consumeBytes_of_drop {i : ℕ} {bs xs rest : Bytes} (hi : i ≤ bs.length)
    (hd : bs.drop i = xs ++ rest) :
    consumeBytes bs i xs.length = some (xs,i+xs.length) ∧ i+xs.length ≤ bs.length ∧
      bs.drop (i+xs.length) = rest := by
  have hrest : bs.drop (i+xs.length) = rest := by
    rw [← List.drop_drop, hd, List.drop_left]
  have hlen := congrArg List.length hd
  rw [List.length_append, List.length_drop] at hlen
  refine ⟨(consumeBytes_eq_some_iff ..).mpr ⟨rfl, hi, rfl, ?_⟩, by omega, hrest⟩
  rw [hrest, hd]

/-- One byte is the same in both orders. -/
theorem encode_one (order order' : ByteOrder) (v : ℕ) : encode order 1 v = encode order' 1 v := by
  cases order <;> cases order' <;> rfl

theorem parseRecord_recordBytes (host : ByteOrder) (portable : Bool) (s : ℕ) (op : WalRecord)
    (hok : RecordOk portable op) (hs : portable = true → s < 2^64) :
    parseRecord host (recordBytes host portable s op) portable =
      .ok (op, if portable then s else 0) := by
  -- the sequence number, if the format has one, and the payload behind it
  obtain ⟨i,hseq,hi,hp⟩ : ∃ i, (if portable then consumeLe 8 (recordBytes host portable s op) 0
      else some (0,0)) = some (if portable then s else 0, i) ∧
      i ≤ (recordBytes host portable s op).length ∧
      (recordBytes host portable s op).drop i = payloadBytes (fieldOrder host portable) op := by
    cases portable with
    | false => exact ⟨0, rfl, Nat.zero_le _, rfl⟩
    | true =>
      have hs' : s < 256^8 := by have := hs rfl; norm_num at this ⊢; omega
      obtain ⟨h1,h2,h3⟩ := consumeUint_of_drop hs' (Nat.zero_le _)
        (show (recordBytes host true s op).drop 0 = encode .little 8 s ++ _ from rfl)
      exact ⟨0+8, h1, h2, h3⟩
  have hlen := congrArg List.length hp
  rw [List.length_drop, length_payloadBytes] at hlen
  cases op with
  | set k v =>
    rw [payloadBytes, encode_one _ host] at hp
    obtain ⟨h1,l1,d1⟩ := consumeUint_of_drop (by decide) hi hp
    obtain ⟨h2,l2,d2⟩ := consumeUint_of_drop hok.key_lt l1 d1
    obtain ⟨h3,l3,d3⟩ := consumeBytes_of_drop l2 d2
    obtain ⟨h4,l4,d4⟩ := consumeUint_of_drop hok.value_lt l3 d3
    obtain ⟨h5,_,_⟩ := consumeBytes_of_drop l4 (d4.trans (List.append_nil v).symm)
    have hend : i+1+4+k.length+4+v.length =
        (recordBytes host portable s (.set k v)).length := by
      simp only [payloadLength] at hlen
      omega
    simp only [Op.key] at h2 h3
    simp only [parseRecord, hseq, consumePrimitive, h1, h2, h3, h4, h5]
    simp [hend]
  | delete k =>
    rw [payloadBytes, encode_one _ host] at hp
    obtain ⟨h1,l1,d1⟩ := consumeUint_of_drop (by decide) hi hp
    obtain ⟨h2,l2,d2⟩ := consumeUint_of_drop hok.key_lt l1 d1
    obtain ⟨h3,_,_⟩ := consumeBytes_of_drop l2 (d2.trans (List.append_nil k).symm)
    have hend : i+1+4+k.length = (recordBytes host portable s (.delete k)).length := by
      simp only [payloadLength] at hlen
      omega
    simp only [Op.key] at h2 h3
    simp only [parseRecord, hseq, consumePrimitive, h1, h2, h3]
    simp [hend, kWalOpDelete, kWalOpSet]

/-- Acceptance by `parse_record` leaves no freedom: the record is the encoding of what
it parses to, with no byte before, between or behind the fields. -/
theorem recordBytes_of_parseRecord {host : ByteOrder} {record : Bytes} {portable : Bool}
    {op : WalRecord} {s : ℕ} (h : parseRecord host record portable = .ok (op,s)) :
    record = recordBytes host portable s op ∧ s < 2^64 ∧ (portable = false → s = 0) := by
  unfold parseRecord at h
  split at h
  · cases h
  rename_i s' i hseq
  -- where the payload starts
  have hpre : s' < 2^64 ∧ (portable = false → s' = 0) ∧
      record = (if portable then encode .little 8 s' else []) ++ record.drop i := by
    cases portable with
    | false =>
      obtain ⟨rfl,rfl⟩ := Prod.mk.inj (Option.some.inj hseq)
      exact ⟨by norm_num, fun _ => rfl, rfl⟩
    | true =>
      obtain ⟨hlt,_,rfl,hd⟩ := (consumeUint_eq_some_iff ..).mp hseq
      exact ⟨by norm_num at hlt ⊢; omega, by simp, by simpa using hd⟩
  obtain ⟨hs,hv2,hrec⟩ := hpre
  split at h
  · cases h
  rename_i opcode j hop
  obtain ⟨_,_,rfl,dop⟩ := (consumeUint_eq_some_iff ..).mp hop
  split at h
  · cases h
  rename_i hcode
  split at h
  · cases h
  rename_i keySize j hks
  obtain ⟨_,_,rfl,dks⟩ := (consumeUint_eq_some_iff ..).mp hks
  split at h
  · cases h
  rename_i key j hkey
  obtain ⟨rfl,_,rfl,dkey⟩ := (consumeBytes_eq_some_iff ..).mp hkey
  rw [dop, dks, dkey] at hrec
  split at h
  · rename_i hset
    split at h
    · cases h
    rename_i valueSize j hvs
    obtain ⟨_,_,rfl,dvs⟩ := (consumeUint_eq_some_iff ..).mp hvs
    split at h
    · cases h
    rename_i value j hval
    obtain ⟨rfl,_,rfl,dval⟩ := (consumeBytes_eq_some_iff ..).mp hval
    split at h
    · cases h
    rename_i hend
    push Not at hend
    obtain ⟨rfl,rfl⟩ := Prod.mk.inj (Except.ok.inj h)
    refine ⟨?_, hs, hv2⟩
    rw [dvs, dval, hend, List.drop_length, List.append_nil, hset,
      encode_one host (fieldOrder host portable)] at hrec
    exact hrec
  · rename_i hset
    split at h
    · cases h
    rename_i hend
    push Not at hend
    obtain ⟨rfl,rfl⟩ := Prod.mk.inj (Except.ok.inj h)
    have hdel : opcode = kWalOpDelete := by
      by_contra hne
      exact hcode ⟨hset,hne⟩
    refine ⟨?_, hs, hv2⟩
    rw [hend, List.drop_length, List.append_nil, hdel,
      encode_one host (fieldOrder host portable)] at hrec
    exact hrec

theorem parseRecord_error_ne_cleanEof {host : ByteOrder} {record : Bytes} {portable : Bool}
    {status : WalReplayStatus} (h : parseRecord host record portable = .error status) :
    status ≠ .cleanEof := by
  unfold parseRecord at h
  repeat' split at h
  all_goals cases h
  all_goals decide

end ConcurrentKV

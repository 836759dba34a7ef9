import ConcurrentKV.WalResume

/-! What the checksums of a log are worth. The table computes the bitwise CRC-32, the frame
patched in place is the documented one, and no change of at most four consecutive bytes inside a
record, a checksum or the header goes unnoticed. -/
namespace ConcurrentKV
open ByteCodec OpLog

/-! ### The bitwise checksum -/

def crc32BitwiseStep (crc : BitVec 32) (byte : UInt8) : BitVec 32 :=
  crc32Shift^[8] (crc ^^^ BitVec.ofNat 32 byte.toNat)

/-- CRC-32 bit by bit, as before there was a table. -/
def crc32Bitwise (bytes : Bytes) : BitVec 32 := ~~~(bytes.foldl crc32BitwiseStep 0xFFFFFFFF#32)

/-- The documented v3 frame. -/
def frameRecord (payload : Bytes) (sequence : ℕ) : Bytes :=
  encode .little 4 (8+payload.length) ++
    (encode .little 4 (crc32Bitwise (encode .little 8 sequence ++ payload)).toNat ++
      (encode .little 8 sequence ++ payload))

theorem crc32Bitwise_eq (bytes : Bytes) : crc32Bitwise bytes = crc32 bytes := by
  have hstep (crc : BitVec 32) (byte : UInt8) : crc32BitwiseStep crc byte = crc32Step crc byte := by
    rw [crc32Step_eq, Crc.absorb, crc32BitwiseStep, funext crc32Shift_eq, Crc.byteWord]
  rw [crc32Bitwise, crc32, funext₂ hstep]

/-- The table-driven checksum is the bitwise one, and patching a prepared frame in place gives
the documented frame for every payload and sequence number. -/
theorem table_checksum_is_bitwise (host : ByteOrder) :
    (∀ bytes, crc32 bytes = crc32Bitwise bytes) ∧
    ∀ (wal wal' : WriteAheadLog) (payload : Bytes), wal.legacyV2 = false → wal'.legacyV2 = false →
      8+payload.length ≤ kMaxRecordLength → wal'.nextSequence < kMaxUint64 →
      ∃ frame, wal.prepareFrame host payload = .ok frame ∧
        wal'.finalizeFrameLocked frame = .ok (frameRecord payload wal'.nextSequence,
          { wal' with nextSequence := wal'.nextSequence+1 }) := by
  refine ⟨fun bytes => (crc32Bitwise_eq bytes).symm, fun wal wal' payload hv2 hv2' hlen hn => ?_⟩
  have hmod : (8+payload.length)%2^32 = 8+payload.length :=
    Nat.mod_eq_of_lt (by simp only [kMaxRecordLength] at hlen; omega)
  refine ⟨encode .little 4 (8+payload.length) ++ (encode .little 4 0 ++
    (encode .little 8 0 ++ payload)), ?_, ?_⟩
  · have hfits : ¬8+payload.length > kMaxRecordLength := Nat.not_lt.mpr hlen
    simp only [WriteAheadLog.prepareFrame, hv2, checkedRecordLength, Nat.add_comm payload.length,
      Bool.false_eq_true, if_false, if_neg hfits, hmod, bind, Except.bind]
    simp [pure, Except.pure, appendLe32, appendLe64]
  · rw [wal'.finalizeFrameLocked_v3 _ _ hv2' hn, frameRecord, crc32Bitwise_eq]

/-- A payload of three bytes, prepared by one object and numbered by another. -/
theorem table_checksum_of_short_payload :
    ∃ frame,
      WriteAheadLog.prepareFrame .big { file := [], policy := .sync, maxBatch := 1 } [1,2,3] =
        .ok frame ∧
      WriteAheadLog.finalizeFrameLocked
          { file := [], policy := .sync, maxBatch := 1, nextSequence := 7 } frame =
        .ok (frameRecord [1,2,3] 7,
          { file := [], policy := .sync, maxBatch := 1, nextSequence := 8 }) :=
  (table_checksum_is_bitwise .big).2 { file := [], policy := .sync, maxBatch := 1 }
    { file := [], policy := .sync, maxBatch := 1, nextSequence := 7 } [1,2,3] rfl rfl (by decide)
    (by decide)

/-! ### Bursts -/

/-- `b'` is `b` with at most four consecutive bytes changed, all of them between `lo` and `hi`. -/
structure Burst (lo hi : ℕ) (b b' : Bytes) : Prop where
  window : ∃ i x, lo ≤ i ∧ i+x.length ≤ hi ∧ x.length ≤ 4 ∧
    b' = b.take i ++ (x ++ b.drop (i+x.length))
  changed : b' ≠ b

/-- A burst inside one part of a file changes only that part. -/
theorem Burst.split {lo hi : ℕ} {b b' pre mid post : Bytes} (h : Burst lo hi b b')
    (hparts : b = pre ++ (mid ++ post)) (hlo : pre.length = lo) (hhi : pre.length+mid.length = hi) :
    ∃ front x y back, mid = front ++ (x ++ back) ∧ x.length = y.length ∧ x.length ≤ 4 ∧ x ≠ y ∧
      b' = pre ++ ((front ++ (y ++ back)) ++ post) := by
  subst hparts hlo hhi
  obtain ⟨⟨i,y,hlo,hhi,h4,hb⟩,hne⟩ := h
  obtain ⟨k,rfl⟩ := Nat.exists_eq_add_of_le hlo
  have hk : k+y.length ≤ mid.length := by omega
  have htake : (pre ++ (mid ++ post)).take (pre.length+k) = pre ++ mid.take k := by
    rw [List.take_length_add_append, List.take_append_of_le_length (by omega)]
  have hdrop : (pre ++ (mid ++ post)).drop (pre.length+k+y.length) =
      mid.drop (k+y.length) ++ post := by
    rw [Nat.add_assoc, List.drop_length_add_append, List.drop_append_of_le_length hk]
  have hmid : mid = mid.take k ++ ((mid.drop k).take y.length ++ mid.drop (k+y.length)) := by
    rw [← List.drop_drop, List.take_append_drop, List.take_append_drop]
  have hlen : ((mid.drop k).take y.length).length = y.length := by
    rw [List.length_take, List.length_drop]
    omega
  rw [htake, hdrop] at hb
  refine ⟨mid.take k, (mid.drop k).take y.length, y, mid.drop (k+y.length), hmid,
    hlen, by omega, ?_, by rw [hb]; simp only [List.append_assoc]⟩
  intro he
  apply hne
  rw [hb]
  conv_rhs => rw [hmid, he]
  simp only [List.append_assoc]

/-! ### A damaged frame -/

/-- The loop breaks at a frame whose checksum is not that of its record. -/
theorem replayFrame_checksumMismatch {host : ByteOrder} {portable : Bool}
    {file record check rest : Bytes}
    {offset : ℕ} {st : ReplayState} (hrecord : 1 ≤ record.length ∧ record.length ≤ kMaxRecordLength)
    (hcheck : check.length = 4)
    (hne : (crc32 record).toNat ≠ decode (fieldOrder host portable) check)
    (hd : file.drop st.cursor =
      encode (fieldOrder host portable) 4 record.length ++ (check ++ (record ++ rest))) :
    replayFrame host file portable offset st = .error { st.result with
      status := .checksumMismatch
      stopOffset := st.cursor } := by
  have hlen : record.length < 256^4 := by
    have := hrecord.2
    simp only [kMaxRecordLength] at this
    omega
  obtain ⟨h1,d1⟩ := readFramingU32_of_drop st.result hlen hd
  have hc := encode_decode (fieldOrder host portable) check
  have hlt := decode_lt (fieldOrder host portable) check
  rw [hcheck] at hc hlt
  rw [← hc] at d1
  obtain ⟨h2,d2⟩ := readFramingU32_of_drop st.result hlt d1
  have hrec : (file.drop (st.cursor+4+4)).take record.length = record := by
    rw [d2, List.take_left]
  have hlen' : ¬(record.length = 0 ∨ record.length > kMaxRecordLength) := by omega
  simp only [replayFrame, h1, if_neg hlen', h2, hrec, ne_eq, not_true, if_false, hne,
    not_false_eq_true, if_true]

/-- Replay of a file that is damaged in the frame behind those of `ops`. -/
theorem replayLoop_damaged (host : ByteOrder) (portable : Bool) (g : ℕ) (m : Store) (b : Bytes)
    (ops : List WalRecord) {record check rest : Bytes} (hok : ∀ op ∈ ops, RecordOk portable op)
    (hn : portable = true → ops.length < 2^64)
    (hrecord : 1 ≤ record.length ∧ record.length ≤ kMaxRecordLength) (hcheck : check.length = 4)
    (hne : (crc32 record).toNat ≠ decode (fieldOrder host portable) check)
    (hd : b.drop (dataStart portable) = framesFrom host portable 1 ops ++
      (encode (fieldOrder host portable) 4 record.length ++ (check ++ (record ++ rest)))) :
    ∃ r, replayLoop host b portable (dataStart portable) (startState portable g m) =
        (r, applyOps ops m) ∧ r.status = .checksumMismatch ∧ r.appliedOperations = ops.length ∧
      r.stopOffset = dataStart portable+(framesFrom host portable 1 ops).length ∧
      r.lastGoodOffset = dataStart portable+(framesFrom host portable 1 ops).length := by
  have hrun : AcceptsRun portable (dataStart portable) (startState portable g m).result 1 ops :=
    ⟨fun hp => by have := hn hp; omega,
      fun _ => (acceptsSequence_start portable g m 1).mpr (fun _ => rfl)⟩
  have hloop := replayLoop_framesFrom hok hrun hd
  have hdrop : b.drop (advanceAll portable 1 ops (startState portable g m)).cursor =
      encode (fieldOrder host portable) 4 record.length ++ (check ++ (record ++ rest)) := by
    rw [advanceAll_cursor host, ← List.drop_drop]
    exact (congrArg (List.drop _) hd).trans List.drop_left
  have hframe := @replayFrame_checksumMismatch host portable b record check rest
    (dataStart portable) _ hrecord hcheck hne hdrop
  rw [replayLoop_of_error hframe] at hloop
  refine ⟨_, by rw [hloop, advanceAll_store]; rfl, rfl, ?_⟩
  rw [advanceAll_cursor host, advanceAll_result host portable 1 ops _ rfl rfl]
  exact ⟨Nat.zero_add _, rfl, rfl⟩

/-- A burst in a frame, behind its length, parts its checksum from its record. -/
theorem burst_in_frame {order : ByteOrder} {b b' front record tail : Bytes}
    (hb : b = front ++ (encode order 4 record.length ++
      (encode order 4 (crc32 record).toNat ++ (record ++ tail))))
    (h : Burst (front.length+4) (front.length+8) b b' ∨
      Burst (front.length+8) (front.length+8+record.length) b b') :
    ∃ check' record',
      b' = front ++ (encode order 4 record.length ++ (check' ++ (record' ++ tail))) ∧
      check'.length = 4 ∧ record'.length = record.length ∧
      (crc32 record').toNat ≠ decode order check' := by
  rcases h with h | h
  · obtain ⟨a,x,y,c,hmid,hlen,-,hne,rfl⟩ := @Burst.split _ _ b b'
      (front ++ encode order 4 record.length) (encode order 4 (crc32 record).toNat)
      (record ++ tail) h (by rw [hb]; simp only [List.append_assoc]) (by simp) (by simp)
    have hfour : (a ++ (y ++ c)).length = 4 := by
      have := congrArg List.length hmid
      simp only [length_encode, List.length_append] at this ⊢
      omega
    refine ⟨a ++ (y ++ c), record, by simp only [List.append_assoc], hfour, rfl, fun heq => hne ?_⟩
    -- a field that reads as the checksum is its encoding
    have hsame :=
      hmid.symm.trans ((decode_eq_iff order hfour (crc32_toNat_lt record)).mp heq.symm).symm
    exact (List.append_inj (List.append_cancel_left hsame) hlen).1
  · obtain ⟨a,x,y,c,hmid,hlen,h4,hne,rfl⟩ := @Burst.split _ _ b b'
      (front ++ (encode order 4 record.length ++ encode order 4 (crc32 record).toNat)) record tail h
      (by rw [hb]; simp only [List.append_assoc]) (by simp) (by simp)
    refine ⟨encode order 4 (crc32 record).toNat, a ++ (y ++ c), by simp only [List.append_assoc],
      by simp, ?_, fun heq => hne ?_⟩
    · rw [hmid]
      simp only [List.length_append, hlen]
    · rw [decode_encode_of_lt order (crc32_toNat_lt record), hmid] at heq
      exact eq_of_crc32_window hlen h4 (BitVec.eq_of_toNat_eq heq.symm)

/-- A log damaged in the frame with index `k`, behind that frame's length: the file and how the
loop reads it. -/
theorem replayLoop_burst {host : ByteOrder} {portable : Bool} {head b' : Bytes}
    {ops : List WalRecord} (hhead : head.length = dataStart portable)
    (hok : ∀ op ∈ ops, RecordOk portable op) (hn : portable = true → ops.length < 2^64) {k : ℕ}
    {op : WalRecord} (hop : ops[k]? = some op)
    (h : Burst (frameStart host portable ops k+4) (frameStart host portable ops k+8)
        (head ++ framesFrom host portable 1 ops) b' ∨
      Burst (frameStart host portable ops k+8)
        (frameStart host portable ops k+8+recordLength portable op)
        (head ++ framesFrom host portable 1 ops) b') (g : ℕ) (m : Store) :
    (∃ rest, b' = head ++ rest ∧ 4 ≤ rest.length ∧
      rest.take 4 = (framesFrom host portable 1 ops).take 4) ∧
    ∃ r, replayLoop host b' portable (dataStart portable) (startState portable g m) =
        (r, applyOps (ops.take k) m) ∧ r.status = .checksumMismatch ∧ r.appliedOperations = k ∧
      r.stopOffset = frameStart host portable ops k ∧
      r.lastGoodOffset = frameStart host portable ops k := by
  obtain ⟨hk,hget⟩ := List.getElem?_eq_some_iff.mp hop
  have hparts : ops = ops.take k ++ op :: ops.drop (k+1) := by
    rw [← hget, List.getElem_cons_drop hk, List.take_append_drop]
  have hcount : (ops.take k).length = k := by
    rw [List.length_take]
    omega
  have hbefore : ∀ o ∈ ops.take k, RecordOk portable o :=
    fun o ho => hok o (List.mem_of_mem_take ho)
  have hokop : RecordOk portable op := hok op (List.mem_of_getElem? hop)
  let record := recordBytes host portable (1+k) op
  let tail := framesFrom host portable (1+k+1) (ops.drop (k+1))
  have hframes : framesFrom host portable 1 ops = framesFrom host portable 1 (ops.take k) ++
      (encode (fieldOrder host portable) 4 record.length ++
        (encode (fieldOrder host portable) 4 (crc32 record).toNat ++ (record ++ tail))) := by
    conv_lhs => rw [hparts, framesFrom_append, hcount, framesFrom, frameBytes]
    simp only [List.append_assoc, record, tail]
  have hlen : record.length = recordLength portable op := length_recordBytes ..
  have hstart : (head ++ framesFrom host portable 1 (ops.take k)).length =
      frameStart host portable ops k := by
    rw [List.length_append, hhead, frameStart]
  have hb : head ++ framesFrom host portable 1 ops =
      (head ++ framesFrom host portable 1 (ops.take k)) ++
        (encode (fieldOrder host portable) 4 record.length ++
          (encode (fieldOrder host portable) 4 (crc32 record).toNat ++ (record ++ tail))) := by
    rw [hframes, List.append_assoc]
  rw [← hlen, ← hstart] at h
  obtain ⟨check,record',hb',hcheck,hsame,hne⟩ := burst_in_frame hb h
  rw [← hsame, List.append_assoc] at hb'
  refine ⟨⟨_, hb', ?_, ?_⟩, ?_⟩
  · simp only [List.length_append, length_encode]
    omega
  · -- the length of the first frame is in front of everything that can change
    have hfour : 4 ≤ (framesFrom host portable 1 (ops.take k) ++
        encode (fieldOrder host portable) 4 record.length).length := by simp
    rw [hframes, hsame, ← List.append_assoc, ← List.append_assoc _ _ (_ ++ (record ++ tail)),
      List.take_append_of_le_length hfour, List.take_append_of_le_length hfour]
  · have hrecord : 1 ≤ record'.length ∧ record'.length ≤ kMaxRecordLength := by
      rw [hsame, hlen]
      exact hokop
    obtain ⟨r,hr,hst,happ,hstop,hgood⟩ := replayLoop_damaged host portable g m b' (ops.take k)
      hbefore (fun hp => by rw [hcount]; exact hk.trans (hn hp)) hrecord hcheck hne
      (by rw [hb', List.drop_left' hhead])
    exact ⟨r, hr, hst, happ.trans hcount, hstop, hgood⟩

/-- A damaged frame stops a replay from the start, behind the operations of the frames before
it. -/
theorem replay_burst_in_frame {host : ByteOrder} {b b' : Bytes} {ops : List WalRecord}
    (hlog : WellFormedLog host b ops) {k : ℕ} {op : WalRecord} (hop : ops[k]? = some op)
    (h : Burst (frameStart host (magicPrefix b) ops k+4) (frameStart host (magicPrefix b) ops k+8)
        b b' ∨
      Burst (frameStart host (magicPrefix b) ops k+8)
        (frameStart host (magicPrefix b) ops k+8+recordLength (magicPrefix b) op) b b')
    (m : Store) :
    ∃ r, replayFromDetailed host b' 0 m = .ok (r, applyOps (ops.take k) m) ∧
      r.status = .checksumMismatch ∧ r.appliedOperations = k ∧
      r.stopOffset = frameStart host (magicPrefix b) ops k ∧
      r.lastGoodOffset = frameStart host (magicPrefix b) ops k := by
  cases hlog with
  | empty => simp at hop
  | v3 g _ hg hg64 hok hn =>
    rw [magicPrefix_of_header (List.prefix_append _ _)] at h ⊢
    obtain ⟨⟨rest,hb',-⟩,r,hr,hfacts⟩ :=
      replayLoop_burst (length_makeHeader g) hok (fun _ => hn) hop h g m
    refine ⟨r, ?_, hfacts⟩
    rw [← hr, hb', replay_eq_loop_v3 host g rest m hg hg64]
  | v2 _ hne hok =>
    have hm := wellFormed_v2_frame hne hok (List.prefix_rfl (l := framesFrom host false 1 ops))
    rw [hm] at h ⊢
    obtain ⟨⟨rest,hb',hlen,htake⟩,r,hr,hfacts⟩ :=
      @replayLoop_burst host false [] b' ops rfl hok (by simp) k op hop h 0 m
    rw [List.nil_append] at hb'
    subst hb'
    have hlong : 4 ≤ (framesFrom host false 1 ops).length := by
      have := length_framesFrom_ge host false 1 ops
      have := List.length_pos_of_ne_nil hne
      omega
    refine ⟨r, ?_, hfacts⟩
    rw [← hr, replay_eq_loop_v2 host m ((magicPrefix_congr hlen hlong htake).trans hm)]
    exact List.ne_nil_of_length_pos (by omega)

/-! ### A damaged header -/

/-- The checksum of a header makes its register a constant. -/
theorem absorbAll_makeHeader (g : ℕ) :
    Crc.absorbAll kCrc32Polynomial (BitVec.allOnes 32) (makeHeader g) =
      (Crc.shift kCrc32Polynomial)^[32] (BitVec.allOnes 32) := by
  rw [makeHeader_eq]
  apply crc32_residue (by simp)
  exact decode_encode_of_lt .little (crc32_toNat_lt _)

/-- No header is a burst away from another. -/
theorem not_header_of_burst {g g' : ℕ} {front x y back : Bytes}
    (hheader : makeHeader g = front ++ (x ++ back)) (hlen : x.length = y.length) (h4 : x.length ≤ 4)
    (hne : x ≠ y) : makeHeader g' ≠ front ++ (y ++ back) := by
  intro h'
  have hr := absorbAll_makeHeader g
  have hr' := absorbAll_makeHeader g'
  rw [hheader] at hr
  rw [h'] at hr'
  exact hne (Crc.eq_of_absorbAll_window kCrc32Polynomial_msb hlen (by omega) (hr.trans hr'.symm))

/-- The first byte of a v2 record is its opcode. -/
theorem head_drop_frameBytes (host : ByteOrder) (s : ℕ) (op : WalRecord) (x : Bytes) :
    ((frameBytes host false s op ++ x).drop 8).head? = some 1 ∨
      ((frameBytes host false s op ++ x).drop 8).head? = some 2 := by
  have hdrop : (frameBytes host false s op ++ x).drop 8 =
      payloadBytes (fieldOrder host false) op ++ x := by
    rw [frameBytes, ← List.append_assoc, List.append_assoc, List.drop_left' (by simp)]
    rfl
  rw [hdrop]
  cases op with
  | set k v => exact .inl (by rw [payloadBytes, encode_one _ .little]; rfl)
  | delete k => exact .inr (by rw [payloadBytes, encode_one _ .little]; rfl)

theorem head_drop_makeHeader (g : ℕ) (rest : Bytes) :
    ((makeHeader g ++ rest).drop 8).head? = some 4 := by
  have hdrop : (makeHeader g ++ rest).drop 8 = encode .little 4 kEndianMarker ++
      (encode .little 8 g ++ (encode .little 4 (crc32 (headerBody g)).toNat ++ rest)) := by
    rw [makeHeader_eq, headerBody]
    simp only [List.append_assoc]
    rw [← List.append_assoc, List.drop_left' (by simp [kWalMagic])]
  rw [hdrop]
  rfl

/-- A burst in the header of a v3 log leaves a file without a readable record. Either the magic is
whole and the checksum fails, or the file is read as a v2 log, whose first opcode would be the
low byte of the endian marker. -/
theorem fileShape_burst_in_header {host : ByteOrder} {g : ℕ} {rest b' : Bytes}
    (h : Burst 0 kHeaderLength (makeHeader g ++ rest) b') :
    FileShape host b' [] ∧ ¬WellFormedLog host b' [] := by
  obtain ⟨front,x,y,back,hheader,hlen,h4,hne,hb'⟩ := @Burst.split _ _ _ b' [] (makeHeader g) rest h
    rfl rfl (by simp)
  rw [List.nil_append] at hb'
  have htotal : (front ++ (y ++ back)).length = kHeaderLength := by
    have := congrArg List.length hheader
    simp only [length_makeHeader, List.length_append] at this ⊢
    omega
  have hnonempty : b' ≠ [] := by
    rw [hb']
    refine List.ne_nil_of_length_pos ?_
    rw [List.length_append, htotal, kHeaderLength]
    omega
  have hno : ¬∃ g', 0 < g' ∧ g' < 2^64 ∧ makeHeader g' <+: b' := by
    rintro ⟨g',-,-,hpre⟩
    have heq : makeHeader g' = front ++ (y ++ back) := by
      have ht := List.prefix_iff_eq_take.mp hpre
      rw [length_makeHeader, hb', ← htotal, List.take_left] at ht
      exact ht
    exact not_header_of_burst hheader hlen h4 hne heq
  have hbad : (parseHeader b' 0).1 = false := by
    rw [← Bool.not_eq_true, parseHeader_fst_iff]
    exact hno
  constructor
  · cases hm : magicPrefix b' with
    | true => exact .badHeader b' hnonempty hm hbad
    | false =>
      refine .v2 [] b' hm hnonempty (by simp) ?_
      -- the magic is damaged, so the burst starts in it and ends before byte eight
      have hfront : front.length < 4 := by
        by_contra hge
        have hl : 4 ≤ b'.length := by
          rw [hb', List.length_append, htotal, kHeaderLength]
          omega
        have hl' : 4 ≤ (makeHeader g ++ rest).length := by
          rw [List.length_append, length_makeHeader, kHeaderLength]
          omega
        have htake : b'.take 4 = (makeHeader g ++ rest).take 4 := by
          rw [hb', hheader, List.append_assoc, List.append_assoc front,
            List.take_append_of_le_length (Nat.not_lt.mp hge),
            List.take_append_of_le_length (Nat.not_lt.mp hge)]
        rw [magicPrefix_congr hl hl' htake, magicPrefix_of_header (List.prefix_append _ _)] at hm
        cases hm
      have hdrop : b'.drop 8 = (makeHeader g ++ rest).drop 8 := by
        have hskip (z : Bytes) (hz : z.length = y.length) :
            (front ++ (z ++ back) ++ rest).drop 8 =
              (back ++ rest).drop (8-(front.length+y.length)) := by
          rw [← List.append_assoc, List.append_assoc _ back, List.drop_append,
            List.drop_eq_nil_of_le (by rw [List.length_append]; omega), List.length_append, hz,
            List.nil_append]
        rw [hb', hheader, hskip y rfl, hskip x hlen]
      intro op z _ _ hz
      have hfour := head_drop_makeHeader g rest
      rw [← hdrop, hz] at hfour
      rcases head_drop_frameBytes host (1+[].length) op z with hop | hop
      · rw [hop] at hfour
        cases hfour
      · rw [hop] at hfour
        cases hfour
  · intro hlog
    generalize hops : ([] : List WalRecord) = ops at hlog
    cases hlog with
    | empty => exact hnonempty rfl
    | v3 g' _ hg hg64 => exact hno ⟨g', hg, hg64, List.prefix_append _ _⟩
    | v2 _ hne => exact hne hops.symm

/-- Short bursts are always caught. Four damaged bytes inside a frame's record or checksum stop
replay at that frame with `ChecksumMismatch`, behind exactly the operations before it. Four
damaged bytes anywhere in a v3 header leave a file from which nothing is applied, whose replay
is not clean and which takes no appends. -/
theorem short_bursts_are_caught (host : ByteOrder) (b b' : Bytes) (ops : List WalRecord)
    (hlog : WellFormedLog host b ops) :
    (∀ k op, ops[k]? = some op →
      Burst (frameStart host (magicPrefix b) ops k+4) (frameStart host (magicPrefix b) ops k+8)
          b b' ∨
        Burst (frameStart host (magicPrefix b) ops k+8)
          (frameStart host (magicPrefix b) ops k+8+recordLength (magicPrefix b) op) b b' →
      ∀ m, ∃ r, replayFromDetailed host b' 0 m = .ok (r, applyOps (ops.take k) m) ∧
        r.status = .checksumMismatch ∧ r.appliedOperations = k ∧
        r.stopOffset = frameStart host (magicPrefix b) ops k ∧
        r.lastGoodOffset = frameStart host (magicPrefix b) ops k) ∧
    (b ≠ [] → magicPrefix b = true → Burst 0 kHeaderLength b b' →
      (∀ m, ∃ r, replayFromDetailed host b' 0 m = .ok (r,m) ∧ r.status ≠ .cleanEof ∧
        r.appliedOperations = 0) ∧
      ∀ policy maxBatch, 1 ≤ maxBatch → maxBatch ≤ 4096 →
        ∃ wal, openWal host b' policy maxBatch = .ok wal ∧
          ∀ op, ∃ e, wal.append host op = (.error e, wal)) := by
  refine ⟨fun k op hop h m => replay_burst_in_frame hlog hop h m, fun hne hm hburst => ?_⟩
  obtain ⟨hshape,hbad⟩ : FileShape host b' [] ∧ ¬WellFormedLog host b' [] := by
    cases hlog with
    | empty => exact absurd rfl hne
    | v3 g _ => exact fileShape_burst_in_header hburst
    | v2 _ hne' hok =>
      rw [wellFormed_v2_frame hne' hok List.prefix_rfl] at hm
      cases hm
  constructor
  · intro m
    obtain ⟨p,r,hlong,hr,-,-,happ,hclean,-⟩ := hshape.replay m
    refine ⟨r, hr, fun hst => hbad ?_, happ⟩
    rw [← hclean.mp hst]
    exact hlong.wellFormed
  · intro policy maxBatch hlo hhi
    obtain ⟨wal,hopen,hfile,-,-,hinv⟩ := openWal_inv hshape policy ⟨hlo,hhi⟩ (by simp [kMaxUint64])
    refine ⟨wal, hopen, fun op => ?_⟩
    cases hadm : wal.appendCheck with
    | ok => exact absurd (hfile ▸ hinv.wellFormed hadm) hbad
    | error e => exact wal.append_of_refused host hadm

/-- A v3 log of one record, with the byte at `i` overwritten. -/
def overwrittenLog (i : ℕ) : Bytes :=
  (makeHeader 1 ++ framesFrom .little true 1 [.set [1] [2]]).take i ++ ([9] ++
    (makeHeader 1 ++ framesFrom .little true 1 [.set [1] [2]]).drop (i+1))

/-- A burst in the record of a log and one in its magic. -/
theorem bursts_in_short_log_are_caught :
    (∃ r, replayFromDetailed .little (overwrittenLog 40) 0 ∅ = .ok (r,∅) ∧
      r.status = .checksumMismatch ∧ r.stopOffset = 24) ∧
    ∃ r, replayFromDetailed .little (overwrittenLog 2) 0 ∅ = .ok (r,∅) ∧ r.status ≠ .cleanEof := by
  have hlog : WellFormedLog .little (makeHeader 1 ++ framesFrom .little true 1 [.set [1] [2]])
      [.set [1] [2]] := .v3 1 _ (by decide) (by decide) (by decide) (by decide)
  have hm : magicPrefix (makeHeader 1 ++ framesFrom .little true 1 [.set [1] [2]]) = true :=
    magicPrefix_of_header (List.prefix_append _ _)
  constructor
  · obtain ⟨r,hr,hst,-,hstop,-⟩ :=
      (short_bursts_are_caught .little _ (overwrittenLog 40) _ hlog).1 0
      (.set [1] [2]) rfl (.inr ⟨⟨40, [9], by rw [hm]; decide, by rw [hm]; decide, by decide, rfl⟩,
        by decide +kernel⟩) ∅
    rw [hm] at hstop
    exact ⟨r, hr, hst, hstop⟩
  · obtain ⟨r,hr,hst,-⟩ := ((short_bursts_are_caught .little _ (overwrittenLog 2) _ hlog).2
      (by decide +kernel) hm
      ⟨⟨2, [9], by decide, by decide, by decide, rfl⟩, by decide +kernel⟩).1 ∅
    exact ⟨r, hr, hst⟩

end ConcurrentKV

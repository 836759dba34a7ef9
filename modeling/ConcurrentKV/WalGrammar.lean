import ConcurrentKV.WalRecords

/-! The grammar of well-formed logs, and that replay recognises exactly its prefixes. -/
namespace ConcurrentKV
open ByteCodec OpLog

/-- A log is empty, a v3 header with frames numbered from one, or one or more v2
frames, and holds the given operations. -/
inductive WellFormedLog (host : ByteOrder) : Bytes → List WalRecord → Prop where
  | empty : WellFormedLog host [] []
  | v3 (g : ℕ) (ops : List WalRecord) (hg : 0 < g) (hg64 : g < 2^64)
      (hok : ∀ op ∈ ops, RecordOk true op) (hn : ops.length < 2^64) :
      WellFormedLog host (makeHeader g ++ framesFrom host true 1 ops) ops
  | v2 (ops : List WalRecord) (hne : ops ≠ []) (hok : ∀ op ∈ ops, RecordOk false op) :
      WellFormedLog host (framesFrom host false 1 ops) ops

/-- What a replayed sequence number must satisfy to be accepted in v3. -/
def AcceptsSequence (portable : Bool) (offset : ℕ) (result : WalReplayResult) (s : ℕ) : Prop :=
  portable = true → s < 2^64 ∧ sequenceRejected offset result s = false

/-- The loop state after one more accepted frame. -/
def advance (portable : Bool) (s : ℕ) (op : WalRecord) (st : ReplayState) : ReplayState :=
  let cursor := st.cursor+(8+recordLength portable op)
  { cursor := cursor
    store := applyRecord op st.store
    result := { st.result with
      appliedOperations := st.result.appliedOperations+1
      lastSequence := if portable then s else st.result.lastSequence
      lastGoodOffset := cursor
      stopOffset := cursor } }

theorem readFramingU32_of_drop {host : ByteOrder} {portable : Bool} {file rest : Bytes} {c v : ℕ}
    (result : WalReplayResult) (hv : v < 256^4)
    (hd : file.drop c = encode (fieldOrder host portable) 4 v ++ rest) :
    readFramingU32 host file c result portable = .ok (v,c+4) ∧ file.drop (c+4) = rest := by
  have ht : (file.drop c).take 4 = encode (fieldOrder host portable) 4 v := by
    rw [hd, List.take_left' (length_encode ..)]
  refine ⟨?_, ?_⟩
  · simp only [readFramingU32, ht, length_encode, decode_encode_of_lt _ hv]
    simp
  · rw [← List.drop_drop, hd, List.drop_left' (length_encode ..)]

theorem RecordOk.length_lt {portable : Bool} {op : WalRecord} (h : RecordOk portable op) :
    recordLength portable op < 256^4 := by
  have hl := h.2
  simp only [kMaxRecordLength] at hl
  omega

/-- A well-formed frame with an accepted sequence number is applied. -/
theorem replayFrame_frameBytes {host : ByteOrder} {portable : Bool} {file rest : Bytes}
    {offset s : ℕ} {op : WalRecord} {st : ReplayState} (hok : RecordOk portable op)
    (hs : AcceptsSequence portable offset st.result s)
    (hd : file.drop st.cursor = frameBytes host portable s op ++ rest) :
    replayFrame host file portable offset st = .ok (advance portable s op st) := by
  rw [frameBytes, List.append_assoc, List.append_assoc, length_recordBytes] at hd
  obtain ⟨h1,d1⟩ := readFramingU32_of_drop st.result hok.length_lt hd
  obtain ⟨h2,d2⟩ := readFramingU32_of_drop st.result (crc32_toNat_lt _) d1
  have hrec : (file.drop (st.cursor+4+4)).take (recordLength portable op) =
      recordBytes host portable s op := by
    rw [d2, List.take_left' (length_recordBytes ..)]
  have hlen : ¬(recordLength portable op = 0 ∨ recordLength portable op > kMaxRecordLength) := by
    have := hok.1
    have := hok.2
    omega
  have hrej : (portable && sequenceRejected offset st.result (if portable then s else 0)) =
      false := by
    cases portable with
    | false => rfl
    | true => simpa using (hs rfl).2
  simp only [replayFrame, h1, if_neg hlen, h2, hrec, length_recordBytes, ne_eq, not_true,
    if_false, parseRecord_recordBytes host portable s op hok (fun hp => (hs hp).1), hrej,
    Bool.false_eq_true]
  cases portable <;> simp [advance, Nat.add_assoc]

/-- Whatever the loop applies is a well-formed frame with an accepted sequence number. -/
theorem frameBytes_of_replayFrame {host : ByteOrder} {portable : Bool} {file : Bytes}
    {offset : ℕ} {st st' : ReplayState} (h : replayFrame host file portable offset st = .ok st') :
    ∃ s op rest, file.drop st.cursor = frameBytes host portable s op ++ rest ∧
      RecordOk portable op ∧ AcceptsSequence portable offset st.result s ∧
      st' = advance portable s op st := by
  unfold replayFrame at h
  dsimp only at h
  split at h
  · cases h
  rename_i len c1 h1
  split at h
  · cases h
  rename_i hlen
  split at h
  · cases h
  rename_i crc c2 h2
  split at h
  · cases h
  rename_i hrec
  split at h
  · cases h
  rename_i hcrc
  split at h
  · cases h
  rename_i op s hparse
  split at h
  · cases h
  rename_i hrej
  push Not at hrec hcrc hlen
  obtain ⟨_,_,rfl,d1⟩ := (consumeUint_eq_some_iff ..).mp (readFramingU32_ok h1)
  obtain ⟨_,_,rfl,d2⟩ := (consumeUint_eq_some_iff ..).mp (readFramingU32_ok h2)
  obtain ⟨hbytes,hs64,hv2⟩ := recordBytes_of_parseRecord hparse
  have hl : recordLength portable op = len := by rw [← hrec, hbytes, length_recordBytes]
  subst hl
  have hok : RecordOk portable op := ⟨by have := hlen.1; omega, hlen.2⟩
  refine ⟨s, op, (file.drop (st.cursor+4+4)).drop (recordLength portable op), ?_, hok, ?_, ?_⟩
  · rw [frameBytes, length_recordBytes, List.append_assoc, List.append_assoc, ← hbytes,
      hcrc, List.take_append_drop, ← d2, ← d1]
  · intro hp
    subst hp
    exact ⟨hs64, by simpa using hrej⟩
  · obtain rfl := Except.ok.inj h
    cases portable <;> simp [advance, hrec, Nat.add_assoc]

/-- Where and how the loop breaks. It has read no further frame, so every offset it
reports is the one before the frame it refused. -/
theorem replayFrame_error {host : ByteOrder} {portable : Bool} {file : Bytes} {offset : ℕ}
    {st : ReplayState} {r : WalReplayResult}
    (h : replayFrame host file portable offset st = .error r) :
    ∃ status, r = { st.result with status := status, stopOffset := st.cursor } ∧
      (status = .cleanEof ↔ file.length ≤ st.cursor) := by
  unfold replayFrame at h
  dsimp only at h
  split at h
  · rename_i r1 h1
    obtain rfl := Except.error.inj h
    unfold readFramingU32 at h1
    dsimp only at h1
    rw [List.length_take, List.length_drop] at h1
    split at h1
    · exact ⟨.cleanEof, (Except.error.inj h1).symm, by simp; omega⟩
    split at h1
    · exact ⟨.partialRecord, (Except.error.inj h1).symm, by simp; omega⟩
    · cases h1
  rename_i len c1 h1
  -- four bytes were there, so this is not the end of the file
  have hmore : ¬file.length ≤ st.cursor := by
    have hf := readFramingU32_ok h1
    unfold consumeUint at hf
    split at hf
    · cases hf
    · omega
  have done (status : WalReplayStatus) (hne : status ≠ .cleanEof)
      (hr : r = { st.result with status := status, stopOffset := st.cursor }) :
      ∃ status, r = { st.result with status := status, stopOffset := st.cursor } ∧
        (status = .cleanEof ↔ file.length ≤ st.cursor) :=
    ⟨status, hr, by simp [hne, hmore]⟩
  split at h
  · exact done _ (by decide) (Except.error.inj h).symm
  split at h
  · exact done _ (by decide) (Except.error.inj h).symm
  split at h
  · exact done _ (by decide) (Except.error.inj h).symm
  split at h
  · exact done _ (by decide) (Except.error.inj h).symm
  split at h
  · rename_i status hparse
    exact done status (parseRecord_error_ne_cleanEof hparse) (Except.error.inj h).symm
  split at h
  · exact done _ (by decide) (Except.error.inj h).symm
  · cases h

/-! ### Runs of frames -/

def advanceAll (portable : Bool) : ℕ → List WalRecord → ReplayState → ReplayState
  | _, [], st => st
  | s, op :: ops, st => advanceAll portable (s+1) ops (advance portable s op st)

@[simp] theorem advance_cursor (portable : Bool) (s : ℕ) (op : WalRecord) (st : ReplayState) :
    (advance portable s op st).cursor = st.cursor+(8+recordLength portable op) := rfl

@[simp] theorem advanceAll_store (portable : Bool) (s : ℕ) (ops : List WalRecord)
    (st : ReplayState) : (advanceAll portable s ops st).store = applyOps ops st.store := by
  induction ops generalizing s st with
  | nil => rfl
  | cons op ops ih => exact ih (s+1) (advance portable s op st)

@[simp] theorem advanceAll_cursor (host : ByteOrder) (portable : Bool) (s : ℕ)
    (ops : List WalRecord) (st : ReplayState) :
    (advanceAll portable s ops st).cursor = st.cursor+(framesFrom host portable s ops).length := by
  induction ops generalizing s st with
  | nil => rfl
  | cons op ops ih =>
    rw [advanceAll, ih, framesFrom, List.length_append, length_frameBytes, advance_cursor]
    omega

theorem advanceAll_result (host : ByteOrder) (portable : Bool) (s : ℕ) (ops : List WalRecord)
    (st : ReplayState) (hg : st.result.lastGoodOffset = st.cursor)
    (hs : st.result.stopOffset = st.cursor) :
    (advanceAll portable s ops st).result = { st.result with
      appliedOperations := st.result.appliedOperations+ops.length
      lastSequence := if portable && ops ≠ [] then s+ops.length-1 else st.result.lastSequence
      lastGoodOffset := st.cursor+(framesFrom host portable s ops).length
      stopOffset := st.cursor+(framesFrom host portable s ops).length } := by
  induction ops generalizing s st with
  | nil =>
    obtain ⟨c,r,m⟩ := st
    cases r
    simp_all [advanceAll, framesFrom]
  | cons op ops ih =>
    rw [advanceAll, ih (s+1) (advance portable s op st) rfl rfl]
    cases portable <;> cases ops <;>
      simp [advance, framesFrom, Nat.add_assoc, Nat.add_comm, Nat.add_left_comm]

/-- Numbering of a run: the first frame is accepted and no number exceeds 64 bits. -/
def AcceptsRun (portable : Bool) (offset : ℕ) (result : WalReplayResult) (s : ℕ)
    (ops : List WalRecord) : Prop :=
  (portable = true → s+ops.length ≤ 2^64) ∧ (ops ≠ [] → AcceptsSequence portable offset result s)

theorem acceptsSequence_advance (portable : Bool) (offset s : ℕ) (op : WalRecord)
    (st : ReplayState) (hs : portable = true → s+1 < 2^64) :
    AcceptsSequence portable offset (advance portable s op st).result (s+1) := by
  intro hp
  have hlt := hs hp
  subst hp
  refine ⟨hlt, ?_⟩
  simp [sequenceRejected, advance]
  omega

/-- The number in a v2 run is only a placeholder. -/
theorem framesFrom_v2 (host : ByteOrder) (a b : ℕ) (ops : List WalRecord) :
    framesFrom host false a ops = framesFrom host false b ops := by
  induction ops generalizing a b with
  | nil => rfl
  | cons op ops ih =>
    have hf : frameBytes host false a op = frameBytes host false b op := rfl
    rw [framesFrom, framesFrom, hf, ih (a+1) (b+1)]

theorem advanceAll_v2 (a b : ℕ) (ops : List WalRecord) (st : ReplayState) :
    advanceAll false a ops st = advanceAll false b ops st := by
  induction ops generalizing a b st with
  | nil => rfl
  | cons op ops ih => exact ih (a+1) (b+1) (advance false a op st)

/-- The loop runs over a whole sequence of frames. -/
theorem replayLoop_framesFrom {host : ByteOrder} {portable : Bool} {file rest : Bytes} {offset : ℕ}
    {ops : List WalRecord} {s : ℕ} {st : ReplayState} (hok : ∀ op ∈ ops, RecordOk portable op)
    (hs : AcceptsRun portable offset st.result s ops)
    (hd : file.drop st.cursor = framesFrom host portable s ops ++ rest) :
    replayLoop host file portable offset st =
      replayLoop host file portable offset (advanceAll portable s ops st) := by
  induction ops generalizing s st with
  | nil => rfl
  | cons op ops ih =>
    obtain ⟨hlen,hacc⟩ := hs
    rw [List.length_cons] at hlen
    rw [framesFrom, List.append_assoc] at hd
    have hf := replayFrame_frameBytes (hok op List.mem_cons_self) (hacc (by simp)) hd
    rw [replayLoop_of_ok hf]
    apply ih (fun o ho => hok o (List.mem_cons_of_mem _ ho))
    · refine ⟨fun hp => by have := hlen hp; omega,
        fun hne => acceptsSequence_advance portable offset s op st (fun hp => ?_)⟩
      have := List.length_pos_of_ne_nil hne
      have := hlen hp
      omega
    · rw [advance_cursor, ← List.drop_drop, hd, List.drop_left' (length_frameBytes ..)]

/-- Every run of the loop consumes frames and then breaks at a place where no further
frame is acceptable. -/
theorem replayLoop_cases (host : ByteOrder) (portable : Bool) (file : Bytes) (offset : ℕ)
    (st : ReplayState) :
    ∃ s ops rest r, file.drop st.cursor = framesFrom host portable s ops ++ rest ∧
      (∀ op ∈ ops, RecordOk portable op) ∧ AcceptsRun portable offset st.result s ops ∧
      replayFrame host file portable offset (advanceAll portable s ops st) = .error r ∧
      replayLoop host file portable offset st = (r, applyOps ops st.store) := by
  induction st using replayLoop.induct host file portable offset with
  | case1 st r hr =>
    exact ⟨0, [], file.drop st.cursor, r, rfl, by simp, ⟨fun _ => by norm_num, by simp⟩, hr,
      replayLoop_of_error hr⟩
  | case2 st st' hr ih =>
    obtain ⟨s,ops,rest,r,hd,hok,hacc,herr,hloop⟩ := ih
    obtain ⟨s0,op,rest0,hd0,hok0,hacc0,rfl⟩ := frameBytes_of_replayFrame hr
    have hstep := replayLoop_of_ok hr
    have hrest : rest0 = framesFrom host portable s ops ++ rest := by
      rw [← hd, advance_cursor, ← List.drop_drop, hd0, List.drop_left' (length_frameBytes ..)]
    -- in v3 an accepted number is one more than the previous one; in v2 it does not matter
    have hnext : portable = true → ops ≠ [] → s = s0+1 ∧ s0+1+ops.length ≤ 2^64 := by
      intro hp hne
      have hlen := hacc.1 hp
      have hrej := (hacc.2 hne hp).2
      subst hp
      simp only [sequenceRejected, advance, ↓reduceIte, Bool.or_eq_false_iff] at hrej
      have h0 : s ≠ 0 := by simpa using hrej.1.1
      have h1 : s = (s0+1)%2^64 := by simpa using hrej.2
      have h2 : s = s0+1 := by
        have := (hacc0 rfl).1
        omega
      exact ⟨h2, by omega⟩
    have hframes : framesFrom host portable s ops = framesFrom host portable (s0+1) ops ∧
        advanceAll portable s ops (advance portable s0 op st) =
          advanceAll portable (s0+1) ops (advance portable s0 op st) := by
      cases portable with
      | false => exact ⟨framesFrom_v2 host s (s0+1) ops, advanceAll_v2 s (s0+1) ops _⟩
      | true =>
        cases ops with
        | nil => exact ⟨rfl, rfl⟩
        | cons o os => rw [(hnext rfl (by simp)).1]; exact ⟨rfl, rfl⟩
    refine ⟨s0, op :: ops, rest, r, ?_, ?_, ⟨?_, fun _ => hacc0⟩, ?_, ?_⟩
    · rw [hd0, hrest, hframes.1, framesFrom, List.append_assoc]
    · exact List.forall_mem_cons.mpr ⟨hok0, hok⟩
    · intro hp
      rw [List.length_cons]
      rcases eq_or_ne ops [] with rfl | hne
      · have := (hacc0 hp).1
        simp only [List.length_nil]
        omega
      · have := (hnext hp hne).2
        omega
    · rw [advanceAll, ← hframes.2]
      exact herr
    · rw [hstep, hloop]
      rfl

/-- The loop breaks at once where no frame with an acceptable number can be read. -/
theorem replayLoop_of_noFrame {host : ByteOrder} {portable : Bool} {file : Bytes} {offset : ℕ}
    {st : ReplayState} (h : ∀ s op x, RecordOk portable op →
      AcceptsSequence portable offset st.result s →
      file.drop st.cursor ≠ frameBytes host portable s op ++ x) :
    ∃ status, replayLoop host file portable offset st =
        ({ st.result with status := status, stopOffset := st.cursor }, st.store) ∧
      (status = .cleanEof ↔ file.length ≤ st.cursor) := by
  cases hr : replayFrame host file portable offset st with
  | error r =>
    obtain ⟨status,rfl,hst⟩ := replayFrame_error hr
    exact ⟨status, replayLoop_of_error hr, hst⟩
  | ok st' =>
    obtain ⟨s,op,x,hd,hok,hacc,-⟩ := frameBytes_of_replayFrame hr
    exact absurd hd (h s op x hok hacc)

/-- The loop over a run of frames with no acceptable frame behind it. -/
theorem replayLoop_run {host : ByteOrder} {portable : Bool} {file rest : Bytes} {offset s : ℕ}
    {ops : List WalRecord} {st : ReplayState} (hok : ∀ op ∈ ops, RecordOk portable op)
    (hs : AcceptsRun portable offset st.result s ops)
    (hd : file.drop st.cursor = framesFrom host portable s ops ++ rest)
    (hstop : ∀ s' op x, RecordOk portable op →
      AcceptsSequence portable offset (advanceAll portable s ops st).result s' →
      rest ≠ frameBytes host portable s' op ++ x) :
    ∃ status, replayLoop host file portable offset st =
        ({ (advanceAll portable s ops st).result with
            status := status
            stopOffset := st.cursor+(framesFrom host portable s ops).length },
          applyOps ops st.store) ∧
      (status = .cleanEof ↔ rest = []) := by
  have hdrop : file.drop (advanceAll portable s ops st).cursor = rest := by
    rw [advanceAll_cursor host, ← List.drop_drop]
    exact (congrArg (List.drop _) hd).trans List.drop_left
  obtain ⟨status,hend,hst⟩ := @replayLoop_of_noFrame host portable file offset
    (advanceAll portable s ops st) (by rwa [hdrop])
  refine ⟨status, ?_, ?_⟩
  · rw [replayLoop_framesFrom hok hs hd, hend, advanceAll_store, advanceAll_cursor host]
  · rw [hst, ← hdrop, List.drop_eq_nil_iff]

/-! ### Unique decomposition -/

/-- A frame at the head of a byte string determines its operation and what follows it. -/
theorem frameBytes_append_inj {host : ByteOrder} {portable : Bool} {s : ℕ} {op op' : WalRecord}
    {t t' : Bytes} (hok : RecordOk portable op) (hok' : RecordOk portable op')
    (hs : portable = true → s < 2^64)
    (h : frameBytes host portable s op ++ t = frameBytes host portable s op' ++ t') :
    op = op' ∧ t = t' := by
  have hlen : recordLength portable op = recordLength portable op' := by
    have h4 := congrArg (List.take 4) h
    simp only [frameBytes, length_recordBytes, List.append_assoc] at h4
    rw [List.take_left' (length_encode ..), List.take_left' (length_encode ..)] at h4
    have hd := congrArg (decode (fieldOrder host portable)) h4
    rwa [decode_encode_of_lt _ hok.length_lt, decode_encode_of_lt _ hok'.length_lt] at hd
  obtain ⟨hf,ht⟩ := List.append_inj h (by simp [hlen])
  refine ⟨?_, ht⟩
  have hrec : recordBytes host portable s op = recordBytes host portable s op' := by
    have h8 := congrArg (List.drop 8) hf
    have hdrop (o : WalRecord) : (frameBytes host portable s o).drop 8 =
        recordBytes host portable s o := by
      rw [frameBytes, ← List.append_assoc, List.drop_left' (by simp)]
    rwa [hdrop, hdrop] at h8
  have hp := parseRecord_recordBytes host portable s op hok hs
  rw [hrec, parseRecord_recordBytes host portable s op' hok' hs] at hp
  exact (Prod.mk.inj (Except.ok.inj hp)).1.symm

/-- A run of frames cannot reach past a place where no further frame starts. -/
theorem framesFrom_prefix {host : ByteOrder} {portable : Bool} {s : ℕ} {ops ops' : List WalRecord}
    {t t' : Bytes} (hok : ∀ op ∈ ops, RecordOk portable op)
    (hok' : ∀ op ∈ ops', RecordOk portable op) (hs : portable = true → s+ops'.length ≤ 2^64)
    (hstop : ∀ op x, RecordOk portable op → (portable = true → s+ops.length < 2^64) →
      t ≠ frameBytes host portable (s+ops.length) op ++ x)
    (h : framesFrom host portable s ops ++ t = framesFrom host portable s ops' ++ t') :
    ops' <+: ops := by
  induction ops' generalizing s ops with
  | nil => exact List.nil_prefix
  | cons op' ops' ih =>
    rw [List.length_cons] at hs
    have hlt : portable = true → s < 2^64 := fun hp => by have := hs hp; omega
    rw [framesFrom, List.append_assoc] at h
    cases ops with
    | nil =>
      simp only [framesFrom, List.nil_append] at h
      exact absurd h (hstop op' _ (hok' op' List.mem_cons_self) hlt)
    | cons op ops =>
      rw [framesFrom, List.append_assoc] at h
      obtain ⟨rfl,ht⟩ := frameBytes_append_inj (hok op List.mem_cons_self)
        (hok' op' List.mem_cons_self) hlt h
      refine List.cons_prefix_cons.mpr ⟨rfl, ?_⟩
      apply ih (fun o ho => hok o (List.mem_cons_of_mem _ ho))
        (fun o ho => hok' o (List.mem_cons_of_mem _ ho)) (fun hp => by have := hs hp; omega) ?_ ht
      intro o x ho hb
      have hidx : s+(op :: ops).length = s+1+ops.length := by rw [List.length_cons]; omega
      rw [hidx] at hstop
      exact hstop o x ho hb

theorem framesFrom_append (host : ByteOrder) (portable : Bool) (s : ℕ) (xs ys : List WalRecord) :
    framesFrom host portable s (xs ++ ys) =
      framesFrom host portable s xs ++ framesFrom host portable (s+xs.length) ys := by
  induction xs generalizing s with
  | nil => rfl
  | cons x xs ih =>
    rw [List.cons_append, framesFrom, framesFrom, ih, List.append_assoc, List.length_cons,
      Nat.add_assoc, Nat.add_comm 1]

theorem framesFrom_ne_nil {host : ByteOrder} {portable : Bool} {s : ℕ} {ops : List WalRecord}
    (h : ops ≠ []) : framesFrom host portable s ops ≠ [] := by
  cases ops with
  | nil => exact absurd rfl h
  | cons op ops =>
    intro hn
    have hl := congrArg List.length hn
    simp [framesFrom] at hl

/-! ### Telling the formats apart -/

theorem magicPrefix_of_header {g : ℕ} {b : Bytes} (h : makeHeader g <+: b) :
    magicPrefix b = true := by
  obtain ⟨t,rfl⟩ := h
  simp [magicPrefix, makeHeader_eq, headerBody, List.append_assoc, kWalMagic]

/-- The magic read as a v2 length, in either order, is far above the record limit. -/
theorem magicPrefix_of_frame {host : ByteOrder} {s : ℕ} {op : WalRecord} {b : Bytes}
    (hok : RecordOk false op) (h : frameBytes host false s op <+: b) : magicPrefix b = false := by
  obtain ⟨t,rfl⟩ := h
  have hlen : kWalMagic.length ≤ (frameBytes host false s op ++ t).length := by
    rw [List.length_append, length_frameBytes]
    simp [kWalMagic]
    omega
  have ht : (frameBytes host false s op ++ t).take kWalMagic.length =
      encode host 4 (recordLength false op) := by
    rw [frameBytes, List.append_assoc, length_recordBytes]
    exact List.take_left' (length_encode ..)
  rw [magicPrefix, ht, List.take_of_length_le hlen, beq_eq_false_iff_ne]
  intro he
  have hd := congrArg (decode host) he
  rw [decode_encode_of_lt host hok.length_lt] at hd
  have hbig : kMaxRecordLength < decode host kWalMagic := by cases host <;> decide
  have := hok.2
  omega

/-- The format is read off the first four bytes. -/
theorem magicPrefix_congr {b b' : Bytes} (hl : 4 ≤ b.length) (hl' : 4 ≤ b'.length)
    (h : b.take 4 = b'.take 4) : magicPrefix b = magicPrefix b' := by
  have h4 : kWalMagic.length = 4 := rfl
  have hall (n : ℕ) (hn : 4 ≤ n) : kWalMagic.take n = kWalMagic := List.take_of_length_le hn
  rw [magicPrefix, magicPrefix, h4, h, hall _ hl, hall _ hl']

/-- Bytes that do not start like a header still do not when more follow. -/
theorem magicPrefix_append {b : Bytes} (h : magicPrefix b = false) (x : Bytes) :
    magicPrefix (b ++ x) = false := by
  rw [magicPrefix, beq_eq_false_iff_ne] at h ⊢
  intro he
  apply h
  have ht := congrArg (List.take b.length) he
  rw [List.take_take, List.take_take, Nat.min_comm, ← List.take_take, List.take_left,
    List.length_append, Nat.min_eq_left (Nat.le_add_right _ _)] at ht
  exact ht

theorem header_prefix_unique {g g' : ℕ} {b : Bytes} (hg : 0 < g) (hg64 : g < 2^64)
    (hg' : 0 < g') (hg64' : g' < 2^64) (h : makeHeader g <+: b) (h' : makeHeader g' <+: b) :
    g = g' := by
  obtain ⟨t,rfl⟩ := h
  obtain ⟨t',ht⟩ := h'
  have hp := parseHeader_makeHeader g 0 hg hg64 t
  rw [← ht, parseHeader_makeHeader g' 0 hg' hg64' t'] at hp
  exact (Prod.mk.inj hp).2.symm

end ConcurrentKV

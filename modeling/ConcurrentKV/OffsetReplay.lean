import ConcurrentKV.WalResume

/-! Replay from an arbitrary offset, which may lie behind the end of the file or inside a
frame. What such a replay makes of one more record decides whether the record is lost. -/
namespace ConcurrentKV
open ByteCodec OpLog

/-- Every frame of a run fits into the run. -/
theorem frame_le_framesFrom (host : ByteOrder) (portable : Bool) {ops : List WalRecord}
    {op : WalRecord} (hop : op ∈ ops) (s : ℕ) :
    8+recordLength portable op ≤ (framesFrom host portable s ops).length := by
  induction ops generalizing s with
  | nil => simp at hop
  | cons x ops ih =>
    rw [framesFrom, List.length_append, length_frameBytes]
    rcases List.mem_cons.mp hop with rfl | hop
    · omega
    · have := ih hop (s+1)
      omega

variable {host : ByteOrder} {portable : Bool}

/-- A replay that has fewer bytes left than the record needs cannot apply it. -/
theorem replayLoop_short {file : Bytes} {offset : ℕ} {st : ReplayState} {k v : Bytes}
    (hlen : (file.drop st.cursor).length < 8+recordLength portable (.set k v))
    (h : (replayLoop host file portable offset st).2.lookup k = some v) :
    st.store.lookup k = some v := by
  obtain ⟨s,ops,rest,r,hd,-,-,-,hloop⟩ := replayLoop_cases host portable file offset st
  rw [hloop, lookup_applyOps] at h
  cases he : lastEffect k ops with
  | none => simpa [he] using h
  | some e =>
    rw [he, Option.getD_some] at h
    subst h
    obtain ⟨op,hop,hk,hv⟩ := lastEffect_mem he
    cases op with
    | delete k' => cases hv
    | set k' v' =>
      obtain rfl : k' = k := hk
      obtain rfl : v' = v := Option.some.inj hv
      have hle := frame_le_framesFrom host portable hop s
      rw [hd, List.length_append] at hlen
      omega

/-- A v3 frame shows its sequence number. -/
theorem frameBytes_sequence {s s' : ℕ} {op op' : WalRecord} {t t' : Bytes}
    (hs : s < 2^64) (hs' : s' < 2^64)
    (h : frameBytes host true s op ++ t = frameBytes host true s' op' ++ t') : s = s' := by
  -- behind eight bytes of framing comes the number
  have hnum (s : ℕ) (op : WalRecord) (t : Bytes) :
      ((frameBytes host true s op ++ t).drop 8).take 8 = encode .little 8 s := by
    have hframe : frameBytes host true s op ++ t =
        (encode .little 4 (recordBytes host true s op).length ++
          encode .little 4 (crc32 (recordBytes host true s op)).toNat) ++
        (encode .little 8 s ++ (payloadBytes .little op ++ t)) := by
      simp [frameBytes, recordBytes, fieldOrder]
    rw [hframe, List.drop_left' (by simp), List.take_left' (by simp)]
  have he := congrArg (fun l => (l.drop 8).take 8) h
  simp only [hnum] at he
  have hd := congrArg (decode .little) he
  rwa [decode_encode_of_lt _ (by norm_num; omega), decode_encode_of_lt _ (by norm_num; omega)] at hd

/-- The length field of a short record has one byte that is not zero, at one end. -/
theorem encode_small (order : ByteOrder) {n : ℕ} (hn : n < 256) :
    encode order 4 n = [UInt8.ofNat n, 0, 0, 0] ∨ encode order 4 n = [0, 0, 0, UInt8.ofNat n] := by
  have hle : leBytes 4 n = [UInt8.ofNat n, 0, 0, 0] := by
    simp [leBytes, Nat.div_eq_of_lt hn]
  cases order with
  | little => exact .inl hle
  | big => exact .inr (by simp [encode, hle])

/-- The same short frame cannot be read a few bytes too early: its length field would have
to agree with itself shifted. -/
theorem frameBytes_shift {s s' : ℕ} {op : WalRecord} {rest rest' : Bytes} (hne : rest ≠ [])
    (hpos : 0 < recordLength portable op) (hsmall : recordLength portable op < 256)
    (hlen : recordLength portable op ≠ decode (fieldOrder host portable) (rest.take 4)) :
    rest ++ frameBytes host portable s op ≠ frameBytes host portable s' op ++ rest' := by
  intro h
  simp only [frameBytes, length_recordBytes, List.append_assoc] at h
  have hbyte : UInt8.ofNat (recordLength portable op) ≠ 0 := by
    intro h0
    have := congrArg UInt8.toNat h0
    simp at this
    omega
  by_cases h4 : 4 ≤ rest.length
  · -- the length field is in the old bytes
    have ht := congrArg (List.take 4) h
    rw [List.take_append_of_le_length h4, List.take_left' (length_encode ..)] at ht
    rw [ht, decode_encode_of_lt _ (by norm_num; omega)] at hlen
    exact hlen rfl
  · -- it begins in the old bytes and ends in the new length field
    rcases encode_small (fieldOrder host portable) hsmall with he | he
    all_goals
      rw [he] at h
      rcases rest with _ | ⟨_,_ | ⟨_,_ | ⟨_,_ | _⟩⟩⟩
      · exact hne rfl
      · simp_all
      · simp_all
      · simp_all
      · simp at h4

/-! ### One more record -/

/-- From `W` on the file is a run of whole frames, and record number `next` continues it. -/
def FramesTo (host : ByteOrder) (portable : Bool) (b : Bytes) (next W : ℕ) : Prop :=
  W ≤ b.length ∧ ∃ s u, 0 < s ∧ (∀ op ∈ u, RecordOk portable op) ∧
    b.drop W = framesFrom host portable s u ∧ (portable = true → s+u.length = next)

/-- The replay from such an offset takes up every record that is appended. -/
theorem FramesTo.replayLoop_append {b : Bytes} {g next W : ℕ} {ops : List WalRecord} (m : Store)
    (h : FramesTo host portable b next W) (hok : ∀ op ∈ ops, RecordOk portable op)
    (hn : portable = true → next+ops.length ≤ 2^64)
    (h1 : portable = true → W = kHeaderLength → ∀ s u, b.drop W = framesFrom host true s u →
      s+u.length = next → s = 1) :
    (replayLoop host (b ++ framesFrom host portable next ops) portable W (middleState g W m)).2 =
      applyOps ops (replayLoop host b portable W (middleState g W m)).2 := by
  obtain ⟨hW,s,u,hs,hu,hd,hnext⟩ := h
  have hfirst : portable = true → W = kHeaderLength → s = 1 := by
    rintro rfl hW
    exact h1 rfl hW s u hd (hnext rfl)
  obtain ⟨r,hold,-⟩ := replayLoop_to_end g m hu hs (fun hp => by
    have := hn hp
    have := hnext hp
    omega) hfirst hd
  have hframes : framesFrom host portable next ops = framesFrom host portable (s+u.length) ops := by
    cases portable with
    | false => exact framesFrom_v2 host _ _ ops
    | true => rw [hnext rfl]
  have hdnew : (b ++ framesFrom host portable next ops).drop W =
      framesFrom host portable s (u ++ ops) := by
    rw [List.drop_append_of_le_length hW, hd, hframes, framesFrom_append]
  have hlen (hp : portable = true) : s+(u ++ ops).length ≤ 2^64 := by
    have := hn hp
    have := hnext hp
    rw [List.length_append]
    omega
  obtain ⟨r',hgrown,-⟩ :=
    replayLoop_to_end g m (List.forall_mem_append.mpr ⟨hu,hok⟩) hs hlen hfirst hdnew
  rw [hold, hgrown, applyOps_append]

/-- A short value that the key does not have and whose record's length is not `len`. -/
theorem exists_probe (portable : Bool) (current : Option Bytes) (len : ℕ) :
    ∃ v : Bytes, current ≠ some v ∧ recordLength portable (.set [] v) ≠ len ∧ v.length ≤ 2 := by
  -- of three lengths each of the two conditions excludes at most one
  by_contra hno
  have hall (v : Bytes) (hv : v.length ≤ 2) :
      current = some v ∨ recordLength portable (.set [] v) = len := by
    by_contra h
    rw [not_or] at h
    exact hno ⟨v, h.1, h.2, hv⟩
  have h0 := hall [] (by simp)
  have h1 := hall [0] (by simp)
  have h2 := hall [0,0] (by simp)
  simp only [recordLength, payloadLength, List.length_nil, List.length_cons] at h0 h1 h2
  rcases h0 with h0 | h0 <;> rcases h1 with h1 | h1 <;> rcases h2 with h2 | h2 <;>
    first | omega | simp_all

/-- One short record tells whether the replay from `W` goes on behind the file. -/
theorem framesTo_of_probe {b : Bytes} {next W : ℕ} (g : ℕ) (m : Store)
    (hnext : portable = true → 0 < next ∧ next < 2^64) :
    ∃ v : Bytes, v.length ≤ 2 ∧
      (replayLoop host b portable W (middleState g W m)).2.lookup [] ≠ some v ∧
      ((replayLoop host (b ++ frameBytes host portable next (.set [] v)) portable W
        (middleState g W m)).2.lookup [] = some v → FramesTo host portable b next W) := by
  obtain ⟨s,u,rest,r,hd,hu,hacc,herr,hloop⟩ :=
    replayLoop_cases host portable b W (middleState g W m)
  replace hd : b.drop W = framesFrom host portable s u ++ rest := hd
  obtain ⟨v,hv,hlen,hshort⟩ := exists_probe portable ((applyOps u m).lookup [])
    (decode (fieldOrder host portable) (rest.take 4))
  refine ⟨v, hshort, ?_, fun hprobe => ?_⟩
  · rw [hloop]
    exact hv
  have hrec : 0 < recordLength portable (.set [] v) ∧ recordLength portable (.set [] v) < 256 := by
    simp only [recordLength, payloadLength, List.length_nil]
    split <;> omega
  have hokv : RecordOk portable (.set [] v) := by
    refine ⟨hrec.1, ?_⟩
    simp only [kMaxRecordLength]
    omega
  -- behind the file, or inside the new frame, the record cannot be read
  have hW : W ≤ b.length := by
    by_contra hW
    have hnil : b.drop W = [] := List.drop_eq_nil_of_le (by omega)
    rw [hnil] at hd
    have hu : u = [] := by
      by_contra hne
      exact framesFrom_ne_nil hne (List.append_eq_nil_iff.mp hd.symm).1
    subst hu
    refine hv (replayLoop_short ?_ hprobe)
    simp only [middleState, List.length_drop, List.length_append, length_frameBytes]
    omega
  have hd' : (b ++ frameBytes host portable next (.set [] v)).drop (middleState g W m).cursor =
      framesFrom host portable s u ++ (rest ++ frameBytes host portable next (.set [] v)) := by
    rw [← List.append_assoc, ← hd]
    exact List.drop_append_of_le_length hW
  rw [replayLoop_framesFrom hu hacc hd'] at hprobe
  obtain ⟨st,hst⟩ : ∃ st, advanceAll portable s u (middleState g W m) = st := ⟨_,rfl⟩
  have hstore : st.store = applyOps u m := by
    rw [← hst]
    exact advanceAll_store ..
  have hcursor : st.cursor = W+(framesFrom host portable s u).length := by
    rw [← hst, advanceAll_cursor host]
    rfl
  have hdst : (b ++ frameBytes host portable next (.set [] v)).drop st.cursor =
      rest ++ frameBytes host portable next (.set [] v) := by
    rw [hcursor, ← List.drop_drop]
    exact (congrArg (List.drop _) hd').trans List.drop_left
  have hdb : b.drop st.cursor = rest := by
    rw [hcursor, ← List.drop_drop]
    exact (congrArg (List.drop _) hd).trans List.drop_left
  rw [hst] at hprobe herr
  -- the replay must take up one more frame
  obtain ⟨st',hst'⟩ : ∃ st', replayFrame host (b ++ frameBytes host portable next (.set [] v))
      portable W st = .ok st' := by
    cases hframe : replayFrame host (b ++ frameBytes host portable next (.set [] v)) portable W
      st with
    | ok st' => exact ⟨st', rfl⟩
    | error r =>
      rw [replayLoop_of_error hframe, hstore] at hprobe
      exact absurd hprobe hv
  rw [replayLoop_of_ok hst'] at hprobe
  obtain ⟨s',op,x,hx,hop,hacc',rfl⟩ := frameBytes_of_replayFrame hst'
  rw [hdst] at hx
  rcases eq_or_ne rest [] with rfl | hrest
  · rw [List.append_nil] at hd
    cases portable with
    | false => exact ⟨hW, 1, u, one_pos, hu, hd.trans (framesFrom_v2 host s 1 u), by simp⟩
    | true =>
      obtain ⟨hpos,hlt⟩ := hnext rfl
      have hx' : frameBytes host true next (.set [] v) ++ [] = frameBytes host true s' op ++ x := by
        rw [List.append_nil]
        exact hx
      have hs' : next = s' := frameBytes_sequence hlt (hacc' rfl).1 hx'
      rcases eq_or_ne u [] with rfl | hne
      · exact ⟨hW, next, [], hpos, hu, hd, fun _ => rfl⟩
      · refine ⟨hW, s, u, ?_, hu, hd, fun _ => ?_⟩
        · have hrej := ((hacc.2 hne) rfl).2
          simp only [sequenceRejected, Bool.or_eq_false_iff, beq_eq_false_iff_ne] at hrej
          exact Nat.pos_of_ne_zero hrej.1.1
        · -- after a first frame only the next number is acceptable
          have hrej := (hacc' rfl).2
          rw [← hst, advanceAll_result host true s u _ rfl rfl, ← hs'] at hrej
          have hle := hacc.1 rfl
          have hu0 := List.length_pos_of_ne_nil hne
          simp [sequenceRejected, hne, middleState] at hrej
          omega
  · exfalso
    have hlong : rest.length < 8+recordLength portable op := by
      by_contra hle
      have hwhole : frameBytes host portable s' op <+:
          rest ++ frameBytes host portable next (.set [] v) := by
        rw [hx]
        exact List.prefix_append _ _
      obtain ⟨y,hy⟩ := List.prefix_of_prefix_length_le hwhole (List.prefix_append _ _)
        (by rw [length_frameBytes]; omega)
      rw [replayFrame_frameBytes hop hacc' (hdb.trans hy.symm)] at herr
      cases herr
    have hne : op ≠ .set [] v := by
      rintro rfl
      exact frameBytes_shift hrest hrec.1 hrec.2 hlen hx
    have hshift : (b ++ frameBytes host portable next (.set [] v)).drop
        (advance portable s' op st).cursor = x := by
      rw [advance_cursor, ← List.drop_drop, hdst, hx, List.drop_left' (length_frameBytes ..)]
    have hlast := replayLoop_short (by
      have := congrArg List.length hx
      simp only [List.length_append, length_frameBytes] at this
      rw [hshift]
      omega) hprobe
    have heff : (applyOp op st.store).lookup [] = some v := hlast
    rw [lookup_applyOp] at heff
    split at heff
    · rename_i hkey
      cases op with
      | delete k => cases heff
      | set k v' =>
        obtain rfl : k = [] := hkey
        obtain rfl : v' = v := Option.some.inj heff
        exact hne rfl
    · rw [hstore] at heff
      exact hv heff

end ConcurrentKV

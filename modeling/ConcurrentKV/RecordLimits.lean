import ConcurrentKV.KVObjects
import ConcurrentKV.SnapshotFormat
import ConcurrentKV.WalTruncation

/-! The size limits of the writer, of replay and of snapshots. A record is refused exactly when
replay would not read its frame back, the two checks of the writer compare the same number, and
what the log accepts fits into a snapshot. -/
namespace ConcurrentKV
open ByteCodec OpLog Sharding Transition

/-! ### The writer and replay -/

/-- Replay decodes the frame of the record, wherever it stands, when its number is due. For a
record beyond the limits the frame is what the writer would build without its checks: the sizes
are cut to their 32-bit fields. -/
def ReplaysBack (host : ByteOrder) (portable : Bool) (s : ℕ) (op : WalRecord) : Prop :=
  ∀ (file rest : Bytes) (offset : ℕ) (st : ReplayState),
    file.drop st.cursor = frameBytes host portable s op ++ rest →
    AcceptsSequence portable offset st.result s →
    replayFrame host file portable offset st = .ok (advance portable s op st)

/-- An object on which appends are not stopped by anything but their size. -/
def WriteAheadLog.Healthy (wal : WriteAheadLog) : Prop :=
  wal.admits ∧ wal.outputOpen = true ∧ 0 < wal.nextSequence ∧ wal.nextSequence ≤ kMaxUint64

instance (wal : WriteAheadLog) : Decidable wal.Healthy := inferInstanceAs (Decidable (_ ∧ _))

variable {host : ByteOrder} {hash : Bytes → ℕ} {portable : Bool} {s : ℕ} {op : WalRecord}
  {ops : List WalRecord} {wal wal' : WriteAheadLog} {e : WalError}

/-- A frame that replay takes for the record is as long as the record is. -/
theorem recordOk_of_replaysBack (hs : portable = true → 0 < s ∧ s < 2^64)
    (h : ReplaysBack host portable s op) : RecordOk portable op := by
  let start : ReplayState := ⟨0, {}, ∅⟩
  have hdue : AcceptsSequence portable 0 start.result s := by
    intro hp
    obtain ⟨hpos,hlt⟩ := hs hp
    exact ⟨hlt, by simp [sequenceRejected, start, kHeaderLength]; omega⟩
  have hframe := h (frameBytes host portable s op) [] 0 start (List.append_nil _).symm hdue
  obtain ⟨s',op',rest,-,hok,-,hstate⟩ := frameBytes_of_replayFrame hframe
  -- both records move the cursor by their length
  have hcursor := congrArg ReplayState.cursor hstate
  simp only [advance] at hcursor
  rw [recordOk_iff] at hok ⊢
  omega

theorem replaysBack_iff (hs : portable = true → 0 < s ∧ s < 2^64) :
    ReplaysBack host portable s op ↔ RecordOk portable op := by
  refine ⟨recordOk_of_replaysBack hs, fun hok file rest offset st hd hdue => ?_⟩
  exact replayFrame_frameBytes hok hdue hd

theorem acknowledges_iff_replaysBack (h : wal.Healthy) :
    wal.acknowledges host op = true ↔ ReplaysBack host wal.portable wal.nextSequence op := by
  obtain ⟨hadmits,hopen,hpos,hmax⟩ := h
  have hs : wal.portable = true → 0 < wal.nextSequence ∧ wal.nextSequence < 2^64 := by
    intro _
    simp only [kMaxUint64] at hmax
    omega
  rw [replaysBack_iff hs, wal.acknowledges_iff host op hmax]
  simp [hadmits, hopen]

/-! ### The two checks of the writer -/

/-- A size as its 32-bit field holds it, in a sum of `size_t`. -/
def sizeField (bytes : Bytes) : UInt64 := (UInt32.ofNat bytes.length).toUInt64

/-- What `AppendSet` and `AppendDelete` pass to `checked_record_length`. -/
def appendLength (legacyV2 : Bool) : WalRecord → UInt64
  | .set key value => 1+4+sizeField key+4+sizeField value+(if legacyV2 then 0 else 8)
  | .delete key => 1+4+sizeField key+(if legacyV2 then 0 else 8)

/-- What `PrepareFrame` passes to it. -/
def frameLength (legacyV2 : Bool) (payload : Bytes) : UInt64 :=
  UInt64.ofNat payload.length+(if legacyV2 then 0 else 8)

/-- `CheckedSize` lets the fields through. -/
def SizesChecked : WalRecord → Prop
  | .set key value => key.length ≤ kMaxUint32 ∧ value.length ≤ kMaxUint32
  | .delete key => key.length ≤ kMaxUint32

theorem toNat_sizeField {bytes : Bytes} (h : bytes.length ≤ kMaxUint32) :
    (sizeField bytes).toNat = bytes.length := by
  simp only [kMaxUint32] at h
  simp only [sizeField, UInt32.toNat_toUInt64, UInt32.toNat_ofNat']
  omega

/-- The sum of the pre-check does not wrap. -/
theorem toNat_appendLength (legacyV2 : Bool) (h : SizesChecked op) :
    (appendLength legacyV2 op).toNat = recordLength (!legacyV2) op := by
  cases op with
  | set key value =>
    have hk := toNat_sizeField h.1
    have hv := toNat_sizeField h.2
    have h1 := h.1
    have h2 := h.2
    simp only [kMaxUint32] at h1 h2
    cases legacyV2 <;>
      simp [appendLength, recordLength, payloadLength, UInt64.toNat_add, hk, hv] <;> omega
  | delete key =>
    have hk := toNat_sizeField h
    simp only [SizesChecked, kMaxUint32] at h
    cases legacyV2 <;>
      simp [appendLength, recordLength, payloadLength, UInt64.toNat_add, hk] <;> omega

/-- Nor does the one of `PrepareFrame`, on the payload that has been built by then. -/
theorem toNat_frameLength (legacyV2 : Bool) (order : ByteOrder) (h : SizesChecked op) :
    (frameLength legacyV2 (payloadBytes order op)).toNat = recordLength (!legacyV2) op := by
  have hlen : payloadLength op < 2^34 := by
    cases op with
    | set key value =>
      obtain ⟨hk,hv⟩ := h
      simp only [payloadLength, kMaxUint32] at hk hv ⊢
      omega
    | delete key =>
      simp only [SizesChecked, payloadLength, kMaxUint32] at h ⊢
      omega
  cases legacyV2 <;> simp [frameLength, recordLength, UInt64.toNat_add] <;> omega

/-! ### Snapshots -/

/-- A record that fits with its sequence number fits without it. -/
theorem RecordOk.legacy (h : RecordOk portable op) : RecordOk false op := by
  rw [recordOk_iff] at h ⊢
  cases portable <;>
    simp only [recordLength, Bool.false_eq_true, if_false, if_true] at h ⊢ <;> omega

/-- Records that were accepted, in whichever format, leave a map that `Snapshot` can keep. -/
theorem fieldsFit_of_accepted
    (h : ∀ op ∈ ops, ∃ wal : WriteAheadLog, wal.Healthy ∧ wal.acknowledges host op = true) :
    FieldsFit (applyOps ops ∅) := by
  apply fieldsFit_empty.applyOps
  intro op hop
  obtain ⟨wal,⟨-,-,-,hmax⟩,hack⟩ := h op hop
  exact ((wal.acknowledges_iff host op hmax).mp hack).2.2.legacy

/-! ### Refused calls -/

/-- The errors of the size checks. -/
def WalError.ofSize : WalError → Bool
  | .keyTooLarge | .valueTooLarge | .recordTooLarge => true
  | _ => false

theorem ofSize_of_writeFrameLocked {frame : Bytes}
    (h : wal.writeFrameLocked frame = (.error e,wal')) : e.ofSize = false := by
  unfold WriteAheadLog.writeFrameLocked at h
  split at h
  · cases h
    rfl
  dsimp only at h
  split at h
  · rename_i hfin
    cases h
    unfold WriteAheadLog.finalizeFrameLocked at hfin
    split_ifs at hfin
    cases hfin
    rfl
  · split at h
    · cases h
    · cases h
      unfold WriteAheadLog.writeError
      split <;> rfl

/-- The checks of the size come before everything that changes the object. -/
theorem append_of_size_error (h : wal.append host op = (.error e,wal')) (hsize : e.ofSize = true) :
    wal' = wal := by
  rw [WriteAheadLog.append] at h
  split at h
  · exact (Prod.mk.inj h).2.symm
  rename_i frame _
  rw [WriteAheadLog.appendFrame] at h
  split at h
  · exact (Prod.mk.inj h).2.symm
  split at h
  · rename_i e' _ hwrite
    obtain rfl : e' = e := Except.error.inj (Prod.mk.inj h).1
    rw [ofSize_of_writeFrameLocked hwrite] at hsize
    cases hsize
  · cases h

/-- A healthy log refuses only for size. -/
theorem append_of_not_acknowledged (h : wal.Healthy) (hno : wal.acknowledges host op = false) :
    ∃ e, e.ofSize = true ∧ wal.append host op = (.error e,wal) := by
  obtain ⟨hadmits,hopen,-,hmax⟩ := h
  have hok : ¬RecordOk wal.portable op := by
    intro hok
    rw [(wal.acknowledges_iff host op hmax).mpr ⟨hadmits, hopen, hok⟩] at hno
    cases hno
  have hpayload := wal.payload_eq host op
  rw [if_neg hok] at hpayload
  refine ⟨_, ?_, by rw [WriteAheadLog.append, WriteAheadLog.prepare, hpayload]; rfl⟩
  split
  · rfl
  split
  · split <;> rfl
  · rfl

/-- `Set` or `Delete` of the object `name`. -/
def StoreCall.ofRecord (name : ℕ) : WalRecord → StoreCall
  | .set key value => .set name key value
  | .delete key => .delete name key

/-- A store whose log refuses the size of a record, and every other store and log, is as if the
call had not been made. -/
theorem step_of_size_error {D : Type} {c : Container D} {world t : World D} {name : ℕ}
    (hstep : world.step host c (.ofRecord name op) = some t)
    (hthrew : t.returned = world.returned ++ [.threw (.wal e)]) (hsize : e.ofSize = true) :
    t = world.returns (.threw (.wal e)) := by
  have hwrite : ∃ x, world.write host c name x op = t := by
    cases op with
    | set | delete =>
      obtain ⟨x,-,hx⟩ := Option.map_eq_some_iff.mp hstep
      exact ⟨x, hx⟩
  obtain ⟨x,rfl⟩ := hwrite
  have hlast {u : World D} {result : CallResult} (hu : u.returned = world.returned)
      (h : (u.returns result).returned = world.returned ++ [.threw (.wal e)]) :
      result = .threw (.wal e) := by
    rw [World.returns, hu] at h
    exact List.singleton_inj.mp (List.append_cancel_left h)
  unfold World.write at hthrew ⊢
  split at hthrew
  · cases hlast rfl hthrew
  rename_i hcheck
  rw [if_neg hcheck]
  cases hwal : x.wal with
  | none =>
    rw [hwal] at hthrew
    have hresult := hlast rfl hthrew
    cases op <;> cases hresult
  | some w =>
    rw [hwal] at hthrew
    rcases happend : (world.wals w).append host op with ⟨e' | _,wal'⟩
    · simp only [World.append, happend] at hthrew ⊢
      obtain rfl : e' = e := CallError.wal.inj (CallResult.threw.inj (hlast rfl hthrew))
      rw [append_of_size_error happend hsize, Function.update_eq_self]
    · simp only [World.append, happend] at hthrew
      have hresult := hlast rfl hthrew
      cases op <;> cases hresult

/-! ### All of them -/

/-- A healthy log accepts exactly the records whose frames replay reads back, and refuses the
others for their size; the writer's two checks compare the same number, without wrap-around; a map
of accepted records is saved and loaded; and a refused call leaves all stores and logs as they
were. -/
theorem writer_and_reader_limits_coincide (host : ByteOrder) (hash : Bytes → ℕ) :
    (∀ (wal : WriteAheadLog) (op : WalRecord), wal.Healthy →
      (wal.acknowledges host op = true ↔
        ReplaysBack host wal.portable wal.nextSequence op) ∧
      (wal.acknowledges host op = true → (wal.append host op).2.file =
        wal.file ++ (wal.headerBytes ++ frameBytes host wal.portable wal.nextSequence op)) ∧
      (wal.acknowledges host op = false →
        ∃ e, e.ofSize = true ∧ wal.append host op = (.error e,wal))) ∧
    (∀ (legacyV2 : Bool) (order : ByteOrder) (op : WalRecord), SizesChecked op →
      (appendLength legacyV2 op).toNat = recordLength (!legacyV2) op ∧
      (frameLength legacyV2 (payloadBytes order op)).toNat = recordLength (!legacyV2) op) ∧
    (∀ (ops : List WalRecord) (entries : List (Bytes × Bytes)) (walOffset : ℕ),
      (∀ op ∈ ops, ∃ wal : WriteAheadLog, wal.Healthy ∧ wal.acknowledges host op = true) →
      Enumerates entries (applyOps ops ∅) → walOffset < 2^64 →
      if (applyOps ops (∅ : Store)).keys.card < 2^32 then
        ∃ bytes, saveBytes host entries walOffset = .ok bytes ∧
          ∀ target, (Snapshot.load host (some bytes)).run.run target =
            (.ok ⟨true, (applyOps ops (∅ : Store)).keys.card, walOffset⟩, applyOps ops ∅)
      else saveBytes host entries walOffset = .error .tooManyEntries) ∧
    ∀ (world t : World (Shard → Store)) (name : ℕ) (op : WalRecord) (e : WalError),
      world.step host (shardContainer hash) (.ofRecord name op) = some t →
      t.returned = world.returned ++ [.threw (.wal e)] → e.ofSize = true →
      t = world.returns (.threw (.wal e)) := by
  refine ⟨fun wal op hhealthy => ⟨acknowledges_iff_replaysBack hhealthy, fun hack => ?_,
    append_of_not_acknowledged hhealthy⟩, fun legacyV2 order op hsizes =>
    ⟨toNat_appendLength legacyV2 hsizes, toNat_frameLength legacyV2 order hsizes⟩,
    fun ops entries walOffset haccepted henum hoff => ?_,
    fun world t name op e hstep hthrew hsize => step_of_size_error hstep hthrew hsize⟩
  · obtain ⟨⟨hcheck,hnum⟩,hopen,-,hmax⟩ := hhealthy
    obtain ⟨-,-,hok⟩ := (wal.acknowledges_iff host op hmax).mp hack
    have hn : wal.portable = true → wal.nextSequence < kMaxUint64 := by
      intro hp
      have hne := hnum (by simpa [WriteAheadLog.portable] using hp)
      omega
    rw [wal.append_of_ok host hcheck hopen hok hn]
    simp [WriteAheadLog.appended, framesFrom]
  · split_ifs with hcount
    · obtain ⟨hsave,hload⟩ := @load_of_saved host entries walOffset _ henum hcount
        (fieldsFit_of_accepted haccepted) hoff
      exact ⟨_, hsave, hload⟩
    · rw [saveBytes, if_pos (henum.length_eq ▸ Nat.le_of_not_lt hcount)]

/-- A log on a file that did not exist. -/
def newLog : WriteAheadLog := { file := [], policy := .sync, maxBatch := 1, headerPending := true }

/-- One store on that log. -/
def storeOnNewLog : World (Shard → Store) where
  stores := fun name => if name = 0 then some { data := fun _ => ∅, wal := some 0 } else none
  wals := fun _ => newLog

theorem newLog_refuses {value : Bytes} (hvalue : kMaxRecordLength ≤ value.length) :
    newLog.acknowledges .little (.set [] value) = false := by
  rw [← Bool.not_eq_true, newLog.acknowledges_iff .little _ (by decide)]
  rintro ⟨-,-,-,hlen⟩
  simp only [recordLength, payloadLength] at hlen
  omega

theorem storeOnNewLog_throws (happend : newLog.append .little op = (.error e,newLog)) :
    ∃ t, storeOnNewLog.step .little (shardContainer hash) (.ofRecord 0 op) = some t ∧
      t.returned = [.threw (.wal e)] := by
  cases op <;>
    simp [StoreCall.ofRecord, World.step, World.onStore, World.write, World.append, World.returns,
      storeOnNewLog, happend]

/-- A record that the log takes, a map that is saved with it, and a `Set` that is refused. -/
theorem limits_coincide_on_new_log :
    newLog.acknowledges .little (.set [1] [2]) = true ∧
    ReplaysBack .little true 1 (.set [1] [2]) ∧
    (newLog.append .little (.set [1] [2])).2.file =
      newLog.headerBytes ++ frameBytes .little true 1 (.set [1] [2]) ∧
    (appendLength false (.set [1] [2])).toNat = 19 ∧
    (∃ bytes, saveBytes .little [([1],[2]),([],[])] 51 = .ok bytes ∧
      ∀ target, (Snapshot.load .little (some bytes)).run.run target =
        (.ok ⟨true, 2, 51⟩, applyOps [.set [1] [2], .set [] []] ∅)) ∧
    ∃ value e t, e.ofSize = true ∧
      newLog.append .little (.set [] value) = (.error e,newLog) ∧
      storeOnNewLog.step .little (shardContainer List.length) (.ofRecord 0 (.set [] value)) =
        some t ∧
      t = storeOnNewLog.returns (.threw (.wal e)) := by
  obtain ⟨hlog,hlength,hsnapshot,hrefused⟩ := writer_and_reader_limits_coincide .little List.length
  have hhealthy : newLog.Healthy := by decide
  obtain ⟨hiff,hfile,-⟩ := hlog newLog (.set [1] [2]) hhealthy
  obtain ⟨value,hvalue⟩ : ∃ value : Bytes, kMaxRecordLength ≤ value.length :=
    ⟨List.replicate kMaxRecordLength 0, List.length_replicate.ge⟩
  obtain ⟨e,hsize,happend⟩ := (hlog newLog (.set [] value) hhealthy).2.2 (newLog_refuses hvalue)
  have hack : newLog.acknowledges .little (.set [1] [2]) = true := by decide +kernel
  have hack' : newLog.acknowledges .little (.set [] []) = true := by decide +kernel
  have hsizes : SizesChecked (.set [1] [2]) := ⟨by decide, by decide⟩
  have hsaved := hsnapshot [.set [1] [2], .set [] []] [([1],[2]),([],[])] 51 (by
    intro op hop
    simp only [List.mem_cons, List.not_mem_nil, or_false] at hop
    rcases hop with rfl | rfl
    · exact ⟨newLog, hhealthy, hack⟩
    · exact ⟨newLog, hhealthy, hack'⟩) (by decide +kernel) (by decide)
  rw [if_pos (by decide +kernel)] at hsaved
  obtain ⟨t,ht,hreturned⟩ := storeOnNewLog_throws happend
  exact ⟨hack, hiff.mp hack, hfile hack, (hlength false .little _ hsizes).1, hsaved, value, e,
    t, hsize, happend, ht, hrefused storeOnNewLog t 0 (.set [] value) e ht hreturned hsize⟩

end ConcurrentKV

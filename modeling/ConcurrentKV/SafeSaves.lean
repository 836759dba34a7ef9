import ConcurrentKV.KVTermination
import ConcurrentKV.SnapshotFiles
import ConcurrentKV.SnapshotFormat

/-! Without a fault from outside no checkpoint, save or compaction fails: a copy within the limits
is written, and what is read back verifies. -/
namespace ConcurrentKV
open ByteCodec OpLog Sharding Transition

/-- A copy that a snapshot can hold. -/
structure Savable (data : Store) (walOffset : ℕ) : Prop where
  fit : FieldsFit data
  count : data.keys.card < 2^32
  offset : walOffset < 2^64

/-- The files at each point of the call that holds `snapshot_mutex_`, and no exception. -/
def PcSafe (host : ByteOrder) (snapshot temp : Option Bytes) : AdminPc → Prop
  | .releasing data walOffset _ | .saving .begin data walOffset => Savable data walOffset
  | .saving .tempWritten data walOffset | .saving .tempSynced data walOffset =>
    Savable data walOffset ∧ Saved host temp data walOffset
  | .saving .renamed data walOffset | .saving .directorySynced data walOffset =>
    Savable data walOffset ∧ Saved host snapshot data walOffset
  | .unlocking failed _ => failed = false
  | _ => True

/-- No checkpoint has failed, and no call that holds `snapshot_mutex_` is failing. -/
structure Faultless (host : ByteOrder) (s : KVStore) : Prop where
  error : s.checkpointError = false
  worker : s.worker ≠ .failed
  safe : ∀ kind pc, s.admin = some ⟨kind,pc⟩ → PcSafe host s.snapshot s.temp pc

/-- What a call finds in the log. -/
structure LogOpen (wal : WriteAheadLog) : Prop where
  outputOpen : wal.outputOpen = true
  generation : wal.generation ≠ kMaxUint64

variable {host : ByteOrder} {hash : Bytes → ℕ} {s t : KVStore} {l : Label} {data : Store}
  {walOffset : ℕ}

theorem Savable.saveBytes (h : Savable data walOffset) (host : ByteOrder)
    {entries : List (Bytes × Bytes)} (henum : Enumerates entries data) :
    saveBytes host entries walOffset = .ok (snapshotBytes host entries walOffset) :=
  (load_of_saved henum h.count h.fit h.offset).1

theorem Savable.verifies (h : Savable data walOffset) {content : Option Bytes}
    (hsaved : Saved host content data walOffset) :
    verifySnapshot host content data walOffset = .ok true := by
  obtain ⟨entries,bytes,rfl,henum,hbytes⟩ := hsaved
  rw [h.saveBytes host henum] at hbytes
  obtain rfl := Except.ok.inj hbytes
  have hn : entries.length < 2^32 := henum.length_eq ▸ h.count
  simp [verifySnapshot, loadSnapshot_snapshotBytes henum h.fit hn h.offset, henum.length_eq]

theorem faultless_start (wal : WriteAheadLog) (m : Store) (snapshot temp : Option Bytes) :
    Faultless host (KVStore.start hash wal m snapshot temp) :=
  ⟨rfl, by simp [KVStore.start], by simp [KVStore.start]⟩

/-- The steps of the holder of `snapshot_mutex_` do not throw. -/
theorem Faultless.admin_succeeds (h : Faultless host s) (hlog : LogOpen s.wal.wal)
    (hstep : s.adminStep host = some t) (kind : AdminKind) (n : ℕ) :
    t.admin ≠ some ⟨kind, .unlocking true n⟩ := by
  have hsafe := h.safe
  unfold KVStore.adminStep at hstep
  split at hstep
  · cases hstep
  rename_i kind' pc hadmin
  replace hsafe := hsafe kind' pc hadmin
  split at hstep
  · split at hstep
    · split_ifs at hstep <;> obtain rfl := Option.some.inj hstep <;> simp [KVStore.leave]
    · obtain rfl := Option.some.inj hstep
      simp
  · split_ifs at hstep
    · obtain rfl := Option.some.inj hstep
      simp
    · unfold KVStore.captureStep at hstep
      have hoffset : s.wal.wal.currentOffset = .ok s.wal.wal.file.length :=
        if_pos hlog.outputOpen
      rw [hoffset] at hstep
      split at hstep
      · split_ifs at hstep
        obtain rfl := Option.some.inj hstep
        simp
      · split_ifs at hstep
        obtain rfl := Option.some.inj hstep
        simp
      · obtain rfl := Option.some.inj hstep
        simp
      · obtain rfl := Option.some.inj hstep
        simp
  · split_ifs at hstep <;> obtain rfl := Option.some.inj hstep <;> simp
  · rename_i stage data walOffset
    cases stage with
    | begin => cases hstep
    | tempWritten | tempSynced | renamed =>
      obtain rfl := Option.some.inj hstep
      simp
    | directorySynced =>
      have hver : verifySnapshot host s.snapshot data walOffset = .ok true :=
        hsafe.1.verifies hsafe.2
      simp only [KVStore.saveStep, if_pos hver] at hstep
      obtain rfl := Option.some.inj hstep
      cases kind' <;> simp [AdminKind.afterSave]
  · split at hstep
    · obtain rfl := Option.some.inj hstep
      simp
    · -- `Clear` is refused only while somebody else has `io_mutex_`
      rename_i hclear
      split_ifs at hstep with hio
      simp [WalThreads.step, hio, hlog.generation] at hclear
  · split at hstep <;> obtain rfl := Option.some.inj hstep <;>
      cases kind' <;> simp [AdminKind.afterClear]
  · obtain rfl := Option.some.inj hstep
    simp
  · obtain rfl := Option.some.inj hstep
    simp
  · obtain rfl := Option.some.inj hstep
    simp
  · obtain rfl := Option.some.inj hstep
    simp
  · rename_i failed m
    obtain rfl : failed = false := hsafe
    split_ifs at hstep <;> obtain rfl := Option.some.inj hstep <;> simp [KVStore.leave]

/-- Nor does the writing of the temporary file. -/
theorem Faultless.write_succeeds (h : Faultless host s) {entries : List (Bytes × Bytes)}
    (hstep : s.step host hash (.writeTemp entries) = some t) (kind : AdminKind) (n : ℕ) :
    t.admin ≠ some ⟨kind, .unlocking true n⟩ := by
  simp only [KVStore.step] at hstep
  split at hstep
  · rename_i kind' data walOffset hadmin
    split_ifs at hstep with henum
    have hsave := (h.safe _ _ hadmin).saveBytes host henum
    rw [hsave] at hstep
    obtain rfl := Option.some.inj hstep
    simp
  · cases hstep

/-- Nothing fails that no fault is behind. -/
theorem Faultless.step (h : Faultless host s) (hstep : s.step host hash l = some t)
    (hl : l.isFault = false) (hlog : LogOpen s.wal.wal)
    (hcopy : ∀ kind n, s.admin = some ⟨kind, .locking n⟩ → kShardCount ≤ n →
      Savable s.collectData s.wal.wal.file.length) : Faultless host t := by
  -- an exception would show in the state behind the step
  have hthrow {call : AdminCall} {temp : Option Bytes} (ht : t = { s.throw call with temp := temp })
      (hno : ∀ kind n, t.admin ≠ some ⟨kind, .unlocking true n⟩) : Faultless host t := by
    subst ht
    exact absurd rfl (hno _ _)
  have hgo {kind : AdminKind} {pc : AdminPc} (hadmin : t.admin = some ⟨kind,pc⟩)
      (herr : t.checkpointError = s.checkpointError) (hworker : t.worker = s.worker)
      (hpc : PcSafe host t.snapshot t.temp pc) : Faultless host t := by
    refine ⟨herr.trans h.error, hworker ▸ h.worker, ?_⟩
    intro kind' pc' ha
    rw [hadmin] at ha
    cases ha
    exact hpc
  have hsafe {kind : AdminKind} {pc : AdminPc} (hadmin : s.admin = some ⟨kind,pc⟩) :=
    h.safe kind pc hadmin
  have hoffset {offset : ℕ} (hoff : s.wal.wal.currentOffset = .ok offset) :
      offset = s.wal.wal.file.length := by
    rw [WriteAheadLog.currentOffset, if_pos hlog.outputOpen] at hoff
    exact (Except.ok.inj hoff).symm
  cases KVStore.steps_of_step hstep with
  | captureFails kind n hn hadmin => exact hthrow rfl (h.admin_succeeds hlog hstep)
  | verifyFails kind data walOffset hadmin => exact hthrow rfl (h.admin_succeeds hlog hstep)
  | rotateFails kind hadmin => exact hthrow rfl (h.admin_succeeds hlog hstep)
  | fault => cases hl
  | writeTempFails l kind data walOffset temp hadmin hlabel =>
    rcases hlabel with ⟨entries,rfl⟩ | ⟨entries,n,rfl⟩
    · exact hthrow rfl (h.write_succeeds hstep)
    · cases hl
  | enter kind | checked epoch hadmin | cancel kind hkind hadmin | lock kind n hn hadmin
  | captureClear n hn hadmin | rotate kind wal hadmin | removeSnapshot kind hadmin
  | removeTemp kind hadmin | syncRemoval kind hadmin =>
    exact hgo rfl rfl rfl trivial
  | syncTruncation kind wal hadmin =>
    exact hgo rfl rfl rfl (by cases kind <;> trivial)
  | reset kind hadmin => exact hgo rfl rfl rfl rfl
  | unlock kind failed n hn hadmin =>
    have hpc := hsafe hadmin
    exact hgo rfl rfl rfl hpc
  | captureCheckpoint epoch n offset hn hadmin hio hoff =>
    obtain rfl := hoffset hoff
    exact hgo rfl rfl rfl (hcopy _ n hadmin hn)
  | captureSave n offset hn hadmin hio hoff =>
    obtain rfl := hoffset hoff
    exact hgo rfl rfl rfl (hcopy _ n hadmin hn)
  | captureCompact n hn hadmin =>
    obtain ⟨hfit,hcount,-⟩ := hcopy _ n hadmin hn
    exact hgo rfl rfl rfl ⟨hfit, hcount, by decide⟩
  | release kind data walOffset n hn hadmin | released kind data walOffset n hn hadmin =>
    have hpc := hsafe hadmin
    exact hgo rfl rfl rfl hpc
  | writeTemp kind data walOffset entries bytes hadmin henum hsave =>
    exact hgo rfl rfl rfl ⟨hsafe hadmin, entries, bytes, rfl, henum, hsave⟩
  | syncTemp kind data walOffset hadmin | rename kind data walOffset hadmin
  | syncDirectory kind data walOffset hadmin =>
    have hpc := hsafe hadmin
    exact hgo rfl rfl rfl hpc
  | verified kind data walOffset hadmin => exact hgo rfl rfl rfl (by cases kind <;> trivial)
  | cancelled epoch hadmin => exact ⟨h.error, by simp [KVStore.leave], by simp [KVStore.leave]⟩
  | leave kind failed n hn hadmin =>
    obtain rfl : failed = false := hsafe hadmin
    refine ⟨h.error, ?_, by simp [KVStore.leave]⟩
    cases kind with
    | checkpoint epoch => simp [KVStore.leave]
    | _ => exact h.worker
  | enterCheckpoint epoch hworker hadmin =>
    refine ⟨h.error, by simp, ?_⟩
    intro kind pc ha
    cases ha
    trivial
  | recordError hworker => exact absurd hworker h.worker
  | take | exit | finish => exact ⟨h.error, by simp, h.safe⟩
  | _ => exact ⟨h.error, h.worker, h.safe⟩

end ConcurrentKV

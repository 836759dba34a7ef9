import ConcurrentKV.KVStore

/-! What one step of the store can do, case by case. -/
namespace ConcurrentKV
open ByteCodec OpLog Sharding Transition

namespace KVStore

variable (host : ByteOrder) (hash : Bytes → ℕ) (s : KVStore)

/-- Every step with its guards and its effect. -/
inductive Steps : Label → KVStore → Prop where
  | callThrows (op : WalRecord) (herr : s.checkpointError = true) : Steps (.call op) s
  | call (op : WalRecord) (herr : s.checkpointError = false) :
      Steps (.call op) { s with calling := s.calling ++ [op] }
  | lockShard (op : WalRecord) (hcall : op ∈ s.calling)
      (hslot : s.slots (shardIndex hash op.key) = .readers []) :
      Steps (.lockShard op) { s.setSlot (shardIndex hash op.key) (.writer ⟨op, .locked⟩) with
        calling := s.calling.erase op }
  | prepare (i : Shard) (op : WalRecord) (wal : WalThreads)
      (hslot : s.slots i = .writer ⟨op, .locked⟩)
      (hwal : s.wal.step host (.prepare op) = some wal) :
      Steps (.caller i) { s.setSlot i (.writer ⟨op, .appending s.wal.nextId⟩) with wal := wal }
  | acknowledge (i : Shard) (op : WalRecord) (id : ℕ)
      (hslot : s.slots i = .writer ⟨op, .appending id⟩) (hres : (id, none) ∈ s.wal.results) :
      Steps (.caller i) (s.setSlot i (.writer ⟨op, .appended id⟩))
  | rethrow (i : Shard) (op : WalRecord) (id : ℕ) (e : WalError)
      (hslot : s.slots i = .writer ⟨op, .appending id⟩) (hres : (id, some e) ∈ s.wal.results) :
      Steps (.caller i) (s.setSlot i (.readers []))
  | mutate (i : Shard) (op : WalRecord) (id : ℕ) (erased : Bool)
      (hslot : s.slots i = .writer ⟨op, .appended id⟩) :
      Steps (.caller i) { s.setSlot i (.writer ⟨op, .mutated id erased⟩) with
        shards := Function.update s.shards i (applyOp op (s.shards i)) }
  | count (i : Shard) (op : WalRecord) (id : ℕ) (erased : Bool)
      (hslot : s.slots i = .writer ⟨op, .mutated id erased⟩) :
      Steps (.caller i) { s.setSlot i (.writer ⟨op, .counted id erased
          (s.writesSinceSnapshot+1 == kSnapshotInterval)⟩) with
        writesSinceSnapshot := s.writesSinceSnapshot+1 }
  | schedule (i : Shard) (op : WalRecord) (id : ℕ) (erased : Bool)
      (hslot : s.slots i = .writer ⟨op, .counted id erased true⟩) :
      Steps (.caller i) { s.setSlot i (.writer ⟨op, .scheduled id erased⟩) with
        checkpointRequested := true }
  | ret (i : Shard) (op : WalRecord) (pc : WritePc) (id : ℕ) (erased : Bool)
      (hslot : s.slots i = .writer ⟨op, pc⟩)
      (hpc : pc = .counted id erased false ∨ pc = .scheduled id erased) :
      Steps (.caller i) { s.setSlot i (.readers []) with
        returned := s.returned ++ [⟨id, op, erased⟩] }
  | lockShared (key : Bytes) (keys : List Bytes)
      (hslot : s.slots (shardIndex hash key) = .readers keys) :
      Steps (.lockShared key) (s.setSlot (shardIndex hash key) (.readers (keys ++ [key])))
  | get (key : Bytes) (value : Option Bytes) (keys : List Bytes)
      (hslot : s.slots (shardIndex hash key) = .readers keys)
      (hvalue : value = (s.shards (shardIndex hash key)).lookup key) :
      Steps (.get key value) (s.setSlot (shardIndex hash key) (.readers (keys.erase key)))
  | wal (l : WalLabel) (wal : WalThreads) (hl : ∀ op, l ≠ .prepare op)
      (hwal : s.wal.step host l = some wal) : Steps (.wal l) { s with wal := wal }
  | enter (kind : AdminKind) (hkind : ∀ epoch, kind ≠ .checkpoint epoch) (hadmin : s.admin = none) :
      Steps (.enter kind) { s with admin := some ⟨kind, .entered⟩ }
  | cancelled (epoch : ℕ) (hadmin : s.admin = some ⟨.checkpoint epoch, .entered⟩)
      (hepoch : epoch ≠ s.checkpointEpoch) : Steps .admin (s.leave (.checkpoint epoch) false)
  | checked (epoch : ℕ) (hadmin : s.admin = some ⟨.checkpoint epoch, .entered⟩)
      (hepoch : epoch = s.checkpointEpoch) :
      Steps .admin { s with admin := some ⟨.checkpoint epoch, .locking 0⟩ }
  | cancel (kind : AdminKind) (hkind : ∀ epoch, kind ≠ .checkpoint epoch)
      (hadmin : s.admin = some ⟨kind, .entered⟩) :
      Steps .admin { s with
        checkpointEpoch := s.checkpointEpoch+1
        checkpointRequested := false
        admin := some ⟨kind, .locking 0⟩ }
  | lock (kind : AdminKind) (n : ℕ) (hn : n < kShardCount)
      (hadmin : s.admin = some ⟨kind, .locking n⟩) (hslot : s.slots ⟨n,hn⟩ = .readers []) :
      Steps .admin { s.setSlot ⟨n,hn⟩ .admin with admin := some ⟨kind, .locking (n+1)⟩ }
  | captureFails (kind : AdminKind) (n : ℕ) (hn : kShardCount ≤ n)
      (hadmin : s.admin = some ⟨kind, .locking n⟩) :
      Steps .admin (s.throw ⟨kind, .locking kShardCount⟩)
  | captureCheckpoint (epoch n : ℕ) (offset : ℕ) (hn : kShardCount ≤ n)
      (hadmin : s.admin = some ⟨.checkpoint epoch, .locking n⟩) (hio : s.wal.ioFree = true)
      (hoff : s.wal.wal.currentOffset = .ok offset) :
      Steps .admin { s with
        writesSinceSnapshot := 0
        admin := some ⟨.checkpoint epoch, .releasing s.collectData offset 0⟩ }
  | captureSave (n : ℕ) (offset : ℕ) (hn : kShardCount ≤ n)
      (hadmin : s.admin = some ⟨.saveSnapshot, .locking n⟩) (hio : s.wal.ioFree = true)
      (hoff : s.wal.wal.currentOffset = .ok offset) :
      Steps .admin { s with admin := some ⟨.saveSnapshot, .saving .begin s.collectData offset⟩ }
  | captureCompact (n : ℕ) (hn : kShardCount ≤ n)
      (hadmin : s.admin = some ⟨.compactPersistence, .locking n⟩) :
      Steps .admin { s with admin := some ⟨.compactPersistence, .saving .begin s.collectData 0⟩ }
  | captureClear (n : ℕ) (hn : kShardCount ≤ n)
      (hadmin : s.admin = some ⟨.clearPersistence, .locking n⟩) :
      Steps .admin { s with admin := some ⟨.clearPersistence, .rotating⟩ }
  | release (kind : AdminKind) (data : Store) (walOffset n : ℕ) (hn : n < kShardCount)
      (hadmin : s.admin = some ⟨kind, .releasing data walOffset n⟩) :
      Steps .admin { s.setSlot ⟨n,hn⟩ (.readers []) with
        admin := some ⟨kind, .releasing data walOffset (n+1)⟩ }
  | released (kind : AdminKind) (data : Store) (walOffset n : ℕ) (hn : kShardCount ≤ n)
      (hadmin : s.admin = some ⟨kind, .releasing data walOffset n⟩) :
      Steps .admin { s with admin := some ⟨kind, .saving .begin data walOffset⟩ }
  | writeTemp (kind : AdminKind) (data : Store) (walOffset : ℕ) (entries : List (Bytes × Bytes))
      (bytes : Bytes) (hadmin : s.admin = some ⟨kind, .saving .begin data walOffset⟩)
      (henum : Enumerates entries data) (hsave : saveBytes host entries walOffset = .ok bytes) :
      Steps (.writeTemp entries) { s with
        temp := some bytes
        admin := some ⟨kind, .saving .tempWritten data walOffset⟩ }
  | writeTempFails (l : Label) (kind : AdminKind) (data : Store) (walOffset : ℕ)
      (temp : Option Bytes) (hadmin : s.admin = some ⟨kind, .saving .begin data walOffset⟩)
      (hl : (∃ entries, l = .writeTemp entries) ∨ ∃ entries n, l = .writeTempFault entries n) :
      Steps l { s.throw ⟨kind, .saving .begin data walOffset⟩ with temp := temp }
  | syncTemp (kind : AdminKind) (data : Store) (walOffset : ℕ)
      (hadmin : s.admin = some ⟨kind, .saving .tempWritten data walOffset⟩) :
      Steps .admin { s with admin := some ⟨kind, .saving .tempSynced data walOffset⟩ }
  | rename (kind : AdminKind) (data : Store) (walOffset : ℕ)
      (hadmin : s.admin = some ⟨kind, .saving .tempSynced data walOffset⟩) :
      Steps .admin { s with
        snapshot := s.temp
        temp := none
        unsynced := s.snapshot :: s.unsynced
        admin := some ⟨kind, .saving .renamed data walOffset⟩ }
  | syncDirectory (kind : AdminKind) (data : Store) (walOffset : ℕ)
      (hadmin : s.admin = some ⟨kind, .saving .renamed data walOffset⟩) :
      Steps .admin { s with
        unsynced := []
        admin := some ⟨kind, .saving .directorySynced data walOffset⟩ }
  | verified (kind : AdminKind) (data : Store) (walOffset : ℕ)
      (hadmin : s.admin = some ⟨kind, .saving .directorySynced data walOffset⟩)
      (hver : verifySnapshot host s.snapshot data walOffset = .ok true) :
      Steps .admin { s with admin := some ⟨kind, kind.afterSave⟩ }
  | verifyFails (kind : AdminKind) (data : Store) (walOffset : ℕ)
      (hadmin : s.admin = some ⟨kind, .saving .directorySynced data walOffset⟩)
      (hver : verifySnapshot host s.snapshot data walOffset ≠ .ok true) :
      Steps .admin (s.throw ⟨kind, .saving .directorySynced data walOffset⟩)
  | rotate (kind : AdminKind) (wal : WalThreads) (hadmin : s.admin = some ⟨kind, .rotating⟩)
      (hwal : s.wal.step host .clear = some wal) :
      Steps .admin { s with wal := wal, admin := some ⟨kind, .truncated⟩ }
  | rotateFails (kind : AdminKind) (hadmin : s.admin = some ⟨kind, .rotating⟩) :
      Steps .admin (s.throw ⟨kind, .rotating⟩)
  | syncTruncation (kind : AdminKind) (wal : WalThreads)
      (hadmin : s.admin = some ⟨kind, .truncated⟩)
      (hwal : s.wal.step host .clearSync = some wal ∨ wal = s.wal ∧ s.wal.truncating = none) :
      Steps .admin { s with wal := wal, admin := some ⟨kind, kind.afterClear⟩ }
  | removeSnapshot (kind : AdminKind) (hadmin : s.admin = some ⟨kind, .removingSnapshot⟩) :
      Steps .admin { s with
        snapshot := none
        unsynced := s.snapshot :: s.unsynced
        admin := some ⟨kind, .removingTemp⟩ }
  | removeTemp (kind : AdminKind) (hadmin : s.admin = some ⟨kind, .removingTemp⟩) :
      Steps .admin { s with temp := none, admin := some ⟨kind, .syncingRemoval⟩ }
  | syncRemoval (kind : AdminKind) (hadmin : s.admin = some ⟨kind, .syncingRemoval⟩) :
      Steps .admin { s with unsynced := [], admin := some ⟨kind, .resetting⟩ }
  | reset (kind : AdminKind) (hadmin : s.admin = some ⟨kind, .resetting⟩) :
      Steps .admin { s with
        writesSinceSnapshot := 0
        admin := some ⟨kind, .unlocking false 0⟩ }
  | unlock (kind : AdminKind) (failed : Bool) (n : ℕ) (hn : n < kShardCount)
      (hadmin : s.admin = some ⟨kind, .unlocking failed n⟩) :
      Steps .admin { s.setSlot ⟨n,hn⟩ (.readers []) with
        admin := some ⟨kind, .unlocking failed (n+1)⟩ }
  | leave (kind : AdminKind) (failed : Bool) (n : ℕ) (hn : kShardCount ≤ n)
      (hadmin : s.admin = some ⟨kind, .unlocking failed n⟩) : Steps .admin (s.leave kind failed)
  | fault (call : AdminCall) (hadmin : s.admin = some call) (hpc : call.pc.mayThrow = true) :
      Steps .adminFault (s.throw call)
  | take (hworker : s.worker = .idle) (hreq : s.checkpointRequested = true) :
      Steps .worker { s with
        checkpointRequested := false
        checkpointActive := true
        worker := .taken s.checkpointEpoch }
  | exit (hworker : s.worker = .idle) (hreq : s.checkpointRequested = false) :
      Steps .worker { s with worker := .exited }
  | enterCheckpoint (epoch : ℕ) (hworker : s.worker = .taken epoch) (hadmin : s.admin = none) :
      Steps .worker { s with
        admin := some ⟨.checkpoint epoch, .entered⟩
        worker := .running }
  | recordError (hworker : s.worker = .failed) :
      Steps .worker { s with
        checkpointError := true
        checkpointRequested := false
        worker := .finishing }
  | finish (hworker : s.worker = .finishing) :
      Steps .worker { s with checkpointActive := false, worker := .idle }
  | stop : Steps .stop { s with checkpointStopping := true }

variable {host hash s}

theorem steps_of_callerStep {i : Shard} {t : KVStore} (h : s.callerStep host i = some t) :
    Steps host hash s (.caller i) t := by
  unfold callerStep at h
  split at h
  · rename_i op hslot
    obtain ⟨wal,hwal,rfl⟩ := Option.map_eq_some_iff.mp h
    exact .prepare i op wal hslot hwal
  · rename_i op id hslot
    split at h
    · cases h
    · rename_i x hfind
      have hid : x = id := by simpa using List.find?_some hfind
      subst hid
      obtain rfl := Option.some.inj h
      exact .acknowledge i op x hslot (List.mem_of_find?_eq_some hfind)
    · rename_i x e hfind
      have hid : x = id := by simpa using List.find?_some hfind
      subst hid
      obtain rfl := Option.some.inj h
      exact .rethrow i op x e hslot (List.mem_of_find?_eq_some hfind)
  · obtain rfl := Option.some.inj h
    exact .mutate i _ _ _ ‹_›
  · obtain rfl := Option.some.inj h
    exact .count i _ _ _ ‹_›
  · obtain rfl := Option.some.inj h
    exact .schedule i _ _ _ ‹_›
  · obtain rfl := Option.some.inj h
    exact .ret i _ _ _ _ ‹_› (.inl rfl)
  · obtain rfl := Option.some.inj h
    exact .ret i _ _ _ _ ‹_› (.inr rfl)
  · cases h

theorem steps_of_captureStep {kind : AdminKind} {n : ℕ} {t : KVStore}
    (hadmin : s.admin = some ⟨kind, .locking n⟩) (hn : kShardCount ≤ n)
    (h : s.captureStep kind = some t) : Steps host hash s .admin t := by
  unfold captureStep at h
  split at h
  · split_ifs at h with hio
    split at h
    · obtain rfl := Option.some.inj h
      exact .captureFails _ n hn hadmin
    · obtain rfl := Option.some.inj h
      exact .captureCheckpoint _ n _ hn hadmin hio ‹_›
  · split_ifs at h with hio
    split at h
    · obtain rfl := Option.some.inj h
      exact .captureFails _ n hn hadmin
    · obtain rfl := Option.some.inj h
      exact .captureSave n _ hn hadmin hio ‹_›
  · obtain rfl := Option.some.inj h
    exact .captureCompact n hn hadmin
  · obtain rfl := Option.some.inj h
    exact .captureClear n hn hadmin

theorem steps_of_saveStep {kind : AdminKind} {stage : SaveStage} {data : Store} {walOffset : ℕ}
    {t : KVStore} (hadmin : s.admin = some ⟨kind, .saving stage data walOffset⟩)
    (h : s.saveStep host kind stage data walOffset = some t) : Steps host hash s .admin t := by
  cases stage with
  | begin => cases h
  | tempWritten =>
    obtain rfl := Option.some.inj h
    exact .syncTemp kind data walOffset hadmin
  | tempSynced =>
    obtain rfl := Option.some.inj h
    exact .rename kind data walOffset hadmin
  | renamed =>
    obtain rfl := Option.some.inj h
    exact .syncDirectory kind data walOffset hadmin
  | directorySynced =>
    unfold saveStep at h
    dsimp only at h
    split at h
    · obtain rfl := Option.some.inj h
      exact .verified kind data walOffset hadmin ‹_›
    · obtain rfl := Option.some.inj h
      exact .verifyFails kind data walOffset hadmin ‹_›

theorem steps_of_adminStep {t : KVStore} (h : s.adminStep host = some t) :
    Steps host hash s .admin t := by
  unfold adminStep at h
  split at h
  · cases h
  rename_i kind pc hadmin
  cases pc with
  | entered =>
    cases kind with
    | checkpoint epoch =>
      dsimp only at h
      split at h
      · obtain rfl := Option.some.inj h
        exact .cancelled epoch hadmin ‹_›
      · rename_i hepoch
        obtain rfl := Option.some.inj h
        exact .checked epoch hadmin (not_ne_iff.mp hepoch)
    | saveSnapshot | compactPersistence | clearPersistence =>
      obtain rfl := Option.some.inj h
      exact .cancel _ (by simp) hadmin
  | locking n =>
    dsimp only at h
    split at h
    · rename_i hn
      split at h
      · obtain rfl := Option.some.inj h
        exact .lock kind n hn hadmin ‹_›
      · cases h
    · rename_i hn
      exact steps_of_captureStep hadmin (Nat.le_of_not_lt hn) h
  | releasing data walOffset n =>
    dsimp only at h
    split at h
    · rename_i hn
      obtain rfl := Option.some.inj h
      exact .release kind data walOffset n hn hadmin
    · rename_i hn
      obtain rfl := Option.some.inj h
      exact .released kind data walOffset n (Nat.le_of_not_lt hn) hadmin
  | saving stage data walOffset => exact steps_of_saveStep hadmin h
  | rotating =>
    dsimp only at h
    split at h
    · obtain rfl := Option.some.inj h
      exact .rotate kind _ hadmin ‹_›
    · split at h
      · obtain rfl := Option.some.inj h
        exact .rotateFails kind hadmin
      · cases h
  | truncated =>
    dsimp only at h
    split at h
    · obtain rfl := Option.some.inj h
      exact .syncTruncation kind _ hadmin (.inl ‹_›)
    · rename_i hnone
      obtain rfl := Option.some.inj h
      refine .syncTruncation kind s.wal hadmin (.inr ⟨rfl, ?_⟩)
      simpa [WalThreads.step] using hnone
  | removingSnapshot =>
    obtain rfl := Option.some.inj h
    exact .removeSnapshot kind hadmin
  | removingTemp =>
    obtain rfl := Option.some.inj h
    exact .removeTemp kind hadmin
  | syncingRemoval =>
    obtain rfl := Option.some.inj h
    exact .syncRemoval kind hadmin
  | resetting =>
    obtain rfl := Option.some.inj h
    exact .reset kind hadmin
  | unlocking failed n =>
    dsimp only at h
    split at h
    · rename_i hn
      obtain rfl := Option.some.inj h
      exact .unlock kind failed n hn hadmin
    · rename_i hn
      obtain rfl := Option.some.inj h
      exact .leave kind failed n (Nat.le_of_not_lt hn) hadmin

theorem steps_of_workerStep {t : KVStore} (h : s.workerStep = some t) :
    Steps host hash s .worker t := by
  unfold workerStep at h
  split at h
  · rename_i hworker
    split at h
    · obtain rfl := Option.some.inj h
      exact .take hworker ‹_›
    · rename_i hreq
      split at h
      · obtain rfl := Option.some.inj h
        exact .exit hworker (by simpa using hreq)
      · cases h
  · split at h
    · obtain rfl := Option.some.inj h
      exact .enterCheckpoint _ ‹_› ‹_›
    · cases h
  · obtain rfl := Option.some.inj h
    exact .recordError ‹_›
  · obtain rfl := Option.some.inj h
    exact .finish ‹_›
  · cases h
  · cases h

theorem steps_of_step {t : KVStore} {l : Label} (h : s.step host hash l = some t) :
    Steps host hash s l t := by
  cases l with
  | call op =>
    simp only [step] at h
    split at h
    · obtain rfl := Option.some.inj h
      exact .callThrows op ‹_›
    · rename_i herr
      obtain rfl := Option.some.inj h
      exact .call op (by simpa using herr)
  | lockShard op =>
    simp only [step] at h
    split at h
    · rename_i hc
      obtain rfl := Option.some.inj h
      exact .lockShard op hc.1 hc.2
    · cases h
  | caller i => exact steps_of_callerStep h
  | lockShared key =>
    simp only [step] at h
    split at h
    · obtain rfl := Option.some.inj h
      exact .lockShared key _ ‹_›
    · cases h
  | get key value =>
    simp only [step] at h
    split at h
    · split at h
      · rename_i hc
        obtain rfl := Option.some.inj h
        exact .get key value _ ‹_› hc.2
      · cases h
    · cases h
  | wal l =>
    have hmap (hl : ∀ op, l ≠ .prepare op)
        (h : (s.wal.step host l).map (fun wal => { s with wal := wal }) = some t) :
        Steps host hash s (.wal l) t := by
      obtain ⟨wal,hwal,rfl⟩ := Option.map_eq_some_iff.mp h
      exact .wal l wal hl hwal
    cases l with
    | prepare op => cases h
    | _ => exact hmap (by simp) h
  | enter kind =>
    have hif (hkind : ∀ epoch, kind ≠ .checkpoint epoch)
        (h : (if s.admin = none then some { s with admin := some ⟨kind, .entered⟩ } else none) =
          some t) : Steps host hash s (.enter kind) t := by
      split at h
      · obtain rfl := Option.some.inj h
        exact .enter kind hkind ‹_›
      · cases h
    cases kind with
    | checkpoint epoch => cases h
    | _ => exact hif (by simp) h
  | admin => exact steps_of_adminStep h
  | writeTemp entries =>
    simp only [step] at h
    split at h
    · split at h
      · split at h
        · obtain rfl := Option.some.inj h
          exact .writeTempFails _ _ _ _ s.temp ‹_› (.inl ⟨entries, rfl⟩)
        · obtain rfl := Option.some.inj h
          exact .writeTemp _ _ _ entries _ ‹_› ‹_› ‹_›
      · cases h
    · cases h
  | writeTempFault entries n =>
    simp only [step] at h
    split at h
    · split at h
      · cases h
      · obtain rfl := Option.some.inj h
        exact .writeTempFails _ _ _ _ _ ‹_› (.inr ⟨entries, n, rfl⟩)
    · cases h
  | adminFault =>
    simp only [step] at h
    split at h
    · split at h
      · obtain rfl := Option.some.inj h
        exact .fault _ ‹_› ‹_›
      · cases h
    · cases h
  | worker => exact steps_of_workerStep h
  | stop =>
    obtain rfl := Option.some.inj h
    exact .stop

/-- Threads of the log can go on by themselves. -/
theorem run_wal (hash : Bytes → ℕ) (s : KVStore) {wal : WalThreads} {ls : List WalLabel}
    (hls : ∀ l ∈ ls, ∀ op, l ≠ .prepare op)
    (hrun : run (WalThreads.step host) s.wal ls = some wal) :
    run (KVStore.step host hash) s (ls.map .wal) = some { s with wal := wal } := by
  induction ls generalizing s with
  | nil =>
    obtain rfl := Option.some.inj hrun
    rfl
  | cons l ls ih =>
    obtain ⟨w,hw,hrun⟩ := run_cons_eq_some.mp hrun
    have hstep : s.step host hash (.wal l) = (s.wal.step host l).map
        fun wal => { s with wal := wal } := by
      have hl := hls l List.mem_cons_self
      cases l with
      | prepare op => exact absurd rfl (hl op)
      | _ => rfl
    rw [List.map_cons, run_cons, hstep, hw, Option.map_some, Option.bind_some]
    exact ih { s with wal := w } (fun l hl => hls l (List.mem_cons_of_mem _ hl)) hrun

/-- Where `snapshot_mutex_` goes: it is left alone, released, taken, or its holder goes on. -/
theorem Steps.admin_cases {l : Label} {t : KVStore} (h : Steps host hash s l t) :
    t.admin = s.admin ∨ t.admin = none ∨
    (∃ kind, t.admin = some ⟨kind, .entered⟩ ∧ (l = .enter kind ∨ ∃ e, kind = .checkpoint e)) ∨
    ∃ kind pc pc', s.admin = some ⟨kind, pc⟩ ∧ t.admin = some ⟨kind, pc'⟩ ∧
      ∀ failed n, pc = .unlocking failed n → pc' = .unlocking failed (n+1) := by
  cases h with
  | enter kind => exact .inr (.inr (.inl ⟨kind, rfl, .inl rfl⟩))
  | enterCheckpoint epoch => exact .inr (.inr (.inl ⟨_, rfl, .inr ⟨epoch, rfl⟩⟩))
  | cancelled | leave => exact .inr (.inl rfl)
  | unlock kind failed n hn hadmin =>
    refine .inr (.inr (.inr ⟨_, _, _, hadmin, rfl, ?_⟩))
    rintro _ _ ⟨⟩
    rfl
  | checked epoch hadmin => exact .inr (.inr (.inr ⟨_, _, _, hadmin, rfl, nofun⟩))
  | cancel kind hkind hadmin => exact .inr (.inr (.inr ⟨_, _, _, hadmin, rfl, nofun⟩))
  | lock kind n hn hadmin | captureFails kind n hn hadmin =>
    exact .inr (.inr (.inr ⟨_, _, _, hadmin, rfl, nofun⟩))
  | captureCheckpoint epoch n offset hn hadmin =>
    exact .inr (.inr (.inr ⟨_, _, _, hadmin, rfl, nofun⟩))
  | captureSave n offset hn hadmin => exact .inr (.inr (.inr ⟨_, _, _, hadmin, rfl, nofun⟩))
  | captureCompact n hn hadmin | captureClear n hn hadmin =>
    exact .inr (.inr (.inr ⟨_, _, _, hadmin, rfl, nofun⟩))
  | release kind data walOffset n hn hadmin | released kind data walOffset n hn hadmin =>
    exact .inr (.inr (.inr ⟨_, _, _, hadmin, rfl, nofun⟩))
  | writeTemp kind data walOffset entries bytes hadmin =>
    exact .inr (.inr (.inr ⟨_, _, _, hadmin, rfl, nofun⟩))
  | writeTempFails l kind data walOffset temp hadmin =>
    exact .inr (.inr (.inr ⟨_, _, _, hadmin, rfl, nofun⟩))
  | syncTemp kind data walOffset hadmin | rename kind data walOffset hadmin
  | syncDirectory kind data walOffset hadmin | verified kind data walOffset hadmin
  | verifyFails kind data walOffset hadmin =>
    exact .inr (.inr (.inr ⟨_, _, _, hadmin, rfl, nofun⟩))
  | rotate kind wal hadmin | syncTruncation kind wal hadmin =>
    exact .inr (.inr (.inr ⟨_, _, _, hadmin, rfl, nofun⟩))
  | rotateFails kind hadmin | removeSnapshot kind hadmin | removeTemp kind hadmin
  | syncRemoval kind hadmin | reset kind hadmin =>
    exact .inr (.inr (.inr ⟨_, _, _, hadmin, rfl, nofun⟩))
  | fault call hadmin hpc =>
    refine .inr (.inr (.inr ⟨call.kind, call.pc, _, hadmin, rfl, fun failed n hn => ?_⟩))
    rw [hn] at hpc
    cases hpc
  | _ => exact .inl rfl

/-- The step in which the holder of all locks truncates the log. -/
def Rotates (s t : KVStore) : Prop :=
  ∃ kind, s.admin = some ⟨kind, .rotating⟩ ∧ t.admin = some ⟨kind, .truncated⟩

theorem Steps.of_rotates {l : Label} {t : KVStore} (h : Steps host hash s l t)
    (hrot : Rotates s t) : ∃ kind wal, s.admin = some ⟨kind, .rotating⟩ ∧
      s.wal.step host .clear = some wal ∧
      t = { s with wal := wal, admin := some ⟨kind, .truncated⟩ } := by
  obtain ⟨kind,hs,ht⟩ := hrot
  cases h with
  | rotate kind wal hadmin hwal => exact ⟨kind, wal, hadmin, hwal, rfl⟩
  | verified kind data walOffset hadmin =>
    rw [hs] at hadmin
    cases hadmin
  | syncTruncation kind wal hadmin =>
    rw [hs] at hadmin
    cases hadmin
  | enter | cancelled | checked | cancel | lock | captureFails | captureCheckpoint | captureSave
  | captureCompact | captureClear | release | released | writeTemp | writeTempFails | syncTemp
  | rename | syncDirectory | verifyFails | rotateFails | removeSnapshot | removeTemp | syncRemoval
  | reset | unlock | leave | fault | enterCheckpoint => cases ht
  | _ =>
    -- the admin's call does not move
    rw [show s.admin = some ⟨kind, .truncated⟩ from ht] at hs
    cases hs

end KVStore

end ConcurrentKV

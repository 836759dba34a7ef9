import ConcurrentKV.Recovery
import ConcurrentKV.Sharding
import ConcurrentKV.WalThreads

/-! `KVStore` over one log and one snapshot file, with every thread that uses it: callers of
`Set`, `Delete` and `Get`, the checkpoint worker, and the calls that hold `snapshot_mutex_`.
A step is what a thread does between two lock operations or two file actions; a step that
a lock or a wait would block is not enabled. -/
namespace ConcurrentKV
open ByteCodec OpLog Sharding Transition

def kShardCount : ℕ := 64
def kSnapshotInterval : ℕ := 1000

instance : NeZero kShardCount := ⟨by decide⟩

abbrev Shard := Fin kShardCount

/-- `ShardIndex`; `hash` is `std::hash<std::string>`, about which nothing is assumed. -/
def shardIndex (hash : Bytes → ℕ) (key : Bytes) : Shard :=
  ⟨hash key &&& (kShardCount-1), Nat.and_lt_two_pow (n := 6) _ (by decide)⟩

/-- How far a `Set` or `Delete` that holds its shard's lock has come. `erased` is what
`Delete` will return. -/
inductive WritePc where
  | locked
  /-- Inside `AppendSet` or `AppendDelete`, as request `id` of the log. -/
  | appending (id : ℕ)
  | appended (id : ℕ)
  | mutated (id : ℕ) (erased : Bool)
  | counted (id : ℕ) (erased due : Bool)
  | scheduled (id : ℕ) (erased : Bool)
  deriving DecidableEq, Repr

structure WriteCall where
  op : WalRecord
  pc : WritePc
  deriving DecidableEq, Repr

/-- A shard's mutex: shared by the `Get` calls for the listed keys, held by one writing
call, or held by the thread that locks all shards. It is free when nobody reads. -/
inductive Slot where
  | readers (keys : List Bytes)
  | writer (call : WriteCall)
  | admin
  deriving DecidableEq, Repr

inductive AdminKind where
  /-- The worker's checkpoint, with the epoch at which it took the request. -/
  | checkpoint (epoch : ℕ)
  | saveSnapshot
  | compactPersistence
  | clearPersistence
  deriving DecidableEq, Repr

/-- How far `SaveVerified` has come. -/
inductive SaveStage where
  | begin
  | tempWritten
  | tempSynced
  | renamed
  | directorySynced
  deriving DecidableEq, Repr

/-- How far the holder of `snapshot_mutex_` has come. -/
inductive AdminPc where
  | entered
  /-- The first `n` shards are locked. -/
  | locking (n : ℕ)
  /-- A checkpoint has its copy and has released the first `n` shards. -/
  | releasing (data : Store) (walOffset n : ℕ)
  | saving (stage : SaveStage) (data : Store) (walOffset : ℕ)
  /-- Before `Clear` of the log. -/
  | rotating
  /-- The log is truncated, and the truncation is not synced yet unless it need not be. -/
  | truncated
  | removingSnapshot
  | removingTemp
  | syncingRemoval
  /-- Before `writes_since_snapshot_ = 0`. -/
  | resetting
  /-- On the way out, with the first `n` shards released again. -/
  | unlocking (failed : Bool) (n : ℕ)
  deriving DecidableEq

/-- The places where a fault hook or a file operation can throw. -/
def AdminPc.mayThrow : AdminPc → Bool
  | .saving .begin _ _ => false
  | .saving _ _ _ | .rotating | .removingSnapshot | .removingTemp | .syncingRemoval => true
  | _ => false

/-- Where a call goes on after a verified save. -/
def AdminKind.afterSave : AdminKind → AdminPc
  | .checkpoint _ => .unlocking false kShardCount
  | .compactPersistence => .rotating
  | _ => .resetting

/-- Where a call goes on after `Clear` of the log. -/
def AdminKind.afterClear : AdminKind → AdminPc
  | .clearPersistence => .removingSnapshot
  | _ => .resetting

structure AdminCall where
  kind : AdminKind
  pc : AdminPc
  deriving DecidableEq

inductive Worker where
  | idle
  | taken (epoch : ℕ)
  | running
  /-- In the catch block. -/
  | failed
  /-- Before `checkpoint_active_ = false`. -/
  | finishing
  | exited
  deriving DecidableEq, Repr

/-- A `Set` or `Delete` that has returned. -/
structure Returned where
  id : ℕ
  op : WalRecord
  erased : Bool
  deriving DecidableEq, Repr

/-- `mutex_` is left out: these calls take it only under `snapshot_mutex_`, so nobody ever
waits for it. -/
structure KVStore where
  wal : WalThreads
  shards : Shard → Store
  slots : Shard → Slot := fun _ => .readers []
  /-- Operations of calls past `CheckCheckpointError` that wait for their shard. -/
  calling : List WalRecord := []
  writesSinceSnapshot : ℕ := 0
  checkpointRequested : Bool := false
  checkpointActive : Bool := false
  checkpointEpoch : ℕ := 0
  checkpointError : Bool := false
  checkpointStopping : Bool := false
  worker : Worker := .idle
  /-- The holder of `snapshot_mutex_`. -/
  admin : Option AdminCall := none
  /-- The files at the snapshot's path and at its temporary path. -/
  snapshot : Option Bytes
  temp : Option Bytes
  /-- Earlier contents of the snapshot's path that a power loss can bring back, because the
  directory was not synced since. -/
  unsynced : List (Option Bytes) := []
  returned : List Returned := []

inductive Label where
  | call (op : WalRecord)
  | lockShard (op : WalRecord)
  /-- The next step of the call that holds the shard's lock. -/
  | caller (i : Shard)
  | lockShared (key : Bytes)
  | get (key : Bytes) (value : Option Bytes)
  /-- A step of the log; `prepare` belongs to the calls. -/
  | wal (l : WalLabel)
  /-- A call enters and takes `snapshot_mutex_`. -/
  | enter (kind : AdminKind)
  /-- The next step of the holder of `snapshot_mutex_`. -/
  | admin
  /-- It writes the temporary file, with the map's entries in this order. -/
  | writeTemp (entries : List (Bytes × Bytes))
  /-- The same, cut off by an error after `n` bytes. -/
  | writeTempFault (entries : List (Bytes × Bytes)) (n : ℕ)
  /-- An exception at a fault point. -/
  | adminFault
  | worker
  | stop

namespace KVStore

variable (host : ByteOrder) (hash : Bytes → ℕ) (s : KVStore)

/-- `CollectDataLocked`. -/
def collectData : Store := collect s.shards

def setSlot (i : Shard) (slot : Slot) : KVStore :=
  { s with slots := Function.update s.slots i slot }

/-- A store as startup leaves it: the map is distributed by `ReplaceDataLocked`, and
`LoadSnapshot` has cancelled once. -/
def start (wal : WriteAheadLog) (data : Store) (snapshot temp : Option Bytes) : KVStore where
  wal := WalThreads.start wal
  shards := split (shardIndex hash) data
  checkpointEpoch := 1
  snapshot := snapshot
  temp := temp

/-- The next step of the call holding the lock of shard `i`. -/
def callerStep (i : Shard) : Option KVStore :=
  match s.slots i with
  | .writer ⟨op, .locked⟩ =>
    (s.wal.step host (.prepare op)).map fun wal =>
      { s.setSlot i (.writer ⟨op, .appending s.wal.nextId⟩) with wal := wal }
  | .writer ⟨op, .appending id⟩ => match s.wal.results.find? (fun r => r.1 == id) with
    | none => none
    | some (_, none) => some (s.setSlot i (.writer ⟨op, .appended id⟩))
    -- the append threw, and the exception leaves the call
    | some (_, some _) => some (s.setSlot i (.readers []))
  | .writer ⟨op, .appended id⟩ =>
    let erased := match op with
      | .set _ _ => false
      | .delete key => ((s.shards i).lookup key).isSome
    some { s.setSlot i (.writer ⟨op, .mutated id erased⟩) with
      shards := Function.update s.shards i (applyOp op (s.shards i)) }
  | .writer ⟨op, .mutated id erased⟩ =>
    some { s.setSlot i (.writer ⟨op, .counted id erased
        (s.writesSinceSnapshot+1 == kSnapshotInterval)⟩) with
      writesSinceSnapshot := s.writesSinceSnapshot+1 }
  | .writer ⟨op, .counted id erased true⟩ =>
    some { s.setSlot i (.writer ⟨op, .scheduled id erased⟩) with checkpointRequested := true }
  | .writer ⟨op, .counted id erased false⟩ | .writer ⟨op, .scheduled id erased⟩ =>
    some { s.setSlot i (.readers []) with returned := s.returned ++ [⟨id, op, erased⟩] }
  | _ => none

/-- An exception in a call. A checkpoint that is saving has no shard locked any more. -/
def throw (call : AdminCall) : KVStore :=
  { s with admin := some { call with pc := .unlocking true (match call.kind, call.pc with
    | .checkpoint _, .saving _ _ _ => kShardCount
    | _, _ => 0) } }

/-- The end of a call that holds `snapshot_mutex_`; a checkpoint returns to the worker. -/
def leave (kind : AdminKind) (failed : Bool) : KVStore :=
  { s with
    admin := none
    worker := match kind with
      | .checkpoint _ => if failed then .failed else .finishing
      | _ => s.worker }

/-- What a call does once every shard is locked. -/
def captureStep (kind : AdminKind) : Option KVStore :=
  match kind with
  | .checkpoint _ =>
    if s.wal.ioFree then match s.wal.wal.currentOffset with
      | .error _ => some (s.throw ⟨kind, .locking kShardCount⟩)
      | .ok offset => some { s with
          writesSinceSnapshot := 0
          admin := some ⟨kind, .releasing s.collectData offset 0⟩ }
    else none
  | .saveSnapshot =>
    if s.wal.ioFree then match s.wal.wal.currentOffset with
      | .error _ => some (s.throw ⟨kind, .locking kShardCount⟩)
      | .ok offset => some { s with admin := some ⟨kind, .saving .begin s.collectData offset⟩ }
    else none
  | .compactPersistence => some { s with admin := some ⟨kind, .saving .begin s.collectData 0⟩ }
  | .clearPersistence => some { s with admin := some ⟨kind, .rotating⟩ }

/-- The steps of `SaveVerified` behind the writing of the temporary file. -/
def saveStep (kind : AdminKind) (stage : SaveStage) (data : Store) (walOffset : ℕ) :
    Option KVStore :=
  match stage with
  | .begin => none
  | .tempWritten => some { s with admin := some ⟨kind, .saving .tempSynced data walOffset⟩ }
  | .tempSynced => some { s with
      snapshot := s.temp
      temp := none
      unsynced := s.snapshot :: s.unsynced
      admin := some ⟨kind, .saving .renamed data walOffset⟩ }
  | .renamed => some { s with
      unsynced := []
      admin := some ⟨kind, .saving .directorySynced data walOffset⟩ }
  | .directorySynced =>
    if verifySnapshot host s.snapshot data walOffset = .ok true then
      some { s with admin := some ⟨kind, kind.afterSave⟩ }
    else some (s.throw ⟨kind, .saving stage data walOffset⟩)

/-- The next step of the holder of `snapshot_mutex_`. -/
def adminStep : Option KVStore :=
  match s.admin with
  | none => none
  | some ⟨kind, pc⟩ => match pc with
    | .entered => match kind with
      | .checkpoint epoch =>
        if epoch ≠ s.checkpointEpoch then some (s.leave kind false)
        else some { s with admin := some ⟨kind, .locking 0⟩ }
      | _ => some { s with
          checkpointEpoch := s.checkpointEpoch+1
          checkpointRequested := false
          admin := some ⟨kind, .locking 0⟩ }
    | .locking n =>
      if h : n < kShardCount then
        if s.slots ⟨n,h⟩ = .readers [] then
          some { s.setSlot ⟨n,h⟩ .admin with admin := some ⟨kind, .locking (n+1)⟩ }
        else none
      else s.captureStep kind
    | .releasing data walOffset n =>
      if h : n < kShardCount then
        some { s.setSlot ⟨n,h⟩ (.readers []) with
          admin := some ⟨kind, .releasing data walOffset (n+1)⟩ }
      else some { s with admin := some ⟨kind, .saving .begin data walOffset⟩ }
    | .saving stage data walOffset => s.saveStep host kind stage data walOffset
    | .rotating => match s.wal.step host .clear with
      | some wal => some { s with wal := wal, admin := some ⟨kind, .truncated⟩ }
      | none => if s.wal.ioFree then some (s.throw ⟨kind, pc⟩) else none
    | .truncated => match s.wal.step host .clearSync with
      | some wal => some { s with wal := wal, admin := some ⟨kind, kind.afterClear⟩ }
      | none => some { s with admin := some ⟨kind, kind.afterClear⟩ }
    | .removingSnapshot => some { s with
        snapshot := none
        unsynced := s.snapshot :: s.unsynced
        admin := some ⟨kind, .removingTemp⟩ }
    | .removingTemp => some { s with temp := none, admin := some ⟨kind, .syncingRemoval⟩ }
    | .syncingRemoval => some { s with unsynced := [], admin := some ⟨kind, .resetting⟩ }
    | .resetting => some { s with
        writesSinceSnapshot := 0
        admin := some ⟨kind, .unlocking false 0⟩ }
    | .unlocking failed n =>
      if h : n < kShardCount then
        some { s.setSlot ⟨n,h⟩ (.readers []) with
          admin := some ⟨kind, .unlocking failed (n+1)⟩ }
      else some (s.leave kind failed)

/-- The loop of the checkpoint worker, outside `snapshot_mutex_`. -/
def workerStep : Option KVStore :=
  match s.worker with
  | .idle =>
    if s.checkpointRequested then some { s with
      checkpointRequested := false
      checkpointActive := true
      worker := .taken s.checkpointEpoch }
    else if s.checkpointStopping then some { s with worker := .exited }
    else none
  | .taken epoch =>
    if s.admin = none then some { s with
      admin := some ⟨.checkpoint epoch, .entered⟩
      worker := .running }
    else none
  | .failed => some { s with
      checkpointError := true
      checkpointRequested := false
      worker := .finishing }
  | .finishing => some { s with checkpointActive := false, worker := .idle }
  | .running | .exited => none

def step : Label → Option KVStore
  | .call op =>
    if s.checkpointError then some s else some { s with calling := s.calling ++ [op] }
  | .lockShard op =>
    if op ∈ s.calling ∧ s.slots (shardIndex hash op.key) = .readers [] then
      some { s.setSlot (shardIndex hash op.key) (.writer ⟨op, .locked⟩) with
        calling := s.calling.erase op }
    else none
  | .caller i => s.callerStep host i
  | .lockShared key => match s.slots (shardIndex hash key) with
    | .readers keys => some (s.setSlot (shardIndex hash key) (.readers (keys ++ [key])))
    | _ => none
  | .get key value => match s.slots (shardIndex hash key) with
    | .readers keys =>
      if key ∈ keys ∧ value = (s.shards (shardIndex hash key)).lookup key then
        some (s.setSlot (shardIndex hash key) (.readers (keys.erase key)))
      else none
    | _ => none
  | .wal (.prepare _) => none
  | .wal l => (s.wal.step host l).map fun wal => { s with wal := wal }
  | .enter (.checkpoint _) => none
  | .enter kind => if s.admin = none then some { s with admin := some ⟨kind, .entered⟩ } else none
  | .admin => s.adminStep host
  | .writeTemp entries => match s.admin with
    | some ⟨kind, .saving .begin data walOffset⟩ =>
      if Enumerates entries data then match saveBytes host entries walOffset with
        | .error _ => some (s.throw ⟨kind, .saving .begin data walOffset⟩)
        | .ok bytes => some { s with
            temp := some bytes
            admin := some ⟨kind, .saving .tempWritten data walOffset⟩ }
      else none
    | _ => none
  | .writeTempFault entries n => match s.admin with
    | some ⟨kind, .saving .begin data walOffset⟩ => match saveBytes host entries walOffset with
      | .error _ => none
      | .ok bytes => some { s.throw ⟨kind, .saving .begin data walOffset⟩ with
          temp := some (bytes.take n) }
    | _ => none
  | .adminFault => match s.admin with
    | some call => if call.pc.mayThrow then some (s.throw call) else none
    | none => none
  | .worker => s.workerStep
  | .stop => some { s with checkpointStopping := true }

end KVStore

/-- Startup of a session on the files of the last one. -/
def openStore (host : ByteOrder) (hash : Bytes → ℕ) (disk : Disk) (policy : DurabilityPolicy)
    (maxBatch : ℕ) : Except StartupError KVStore :=
  match startup host disk policy maxBatch with
  | .error e => .error e
  | .ok (wal,data) => .ok (KVStore.start hash wal data disk.snapshot disk.temp)

end ConcurrentKV

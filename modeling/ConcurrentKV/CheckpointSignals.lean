import ConcurrentKV.KVStore

/-! The signals of automatic checkpointing, without the data: the write counter, the request flags
with their condition variable and everyone who touches them. `checkpoint_ready_` is a wait set;
whoever is in it has not been notified, and whoever was notified or woke up by itself tests its
predicate again. -/
namespace ConcurrentKV
open Transition

/-- A thread that waits on `checkpoint_ready_`. -/
inductive Sleeper where
  | worker
  /-- A call of `WaitForCheckpoints`. -/
  | caller (id : ℕ)
  deriving DecidableEq, Repr

/-- How far a `Set` or `Delete` that holds its shard's lock has come. -/
inductive SignalPc where
  | locked
  | counted (due : Bool)
  | scheduled
  deriving DecidableEq, Repr

/-- A shard's mutex, for the calls that lock it exclusively. -/
inductive ShardLock where
  | free
  | writer (pc : SignalPc)
  | all
  deriving DecidableEq, Repr

/-- The calls that take `snapshot_mutex_` and cancel. -/
inductive CancellingOp where
  | saveSnapshot
  | compactPersistence
  | clearPersistence
  | loadSnapshot
  deriving DecidableEq, Repr

/-- Whether a call that succeeds sets the counter back. -/
def CancellingOp.resets : CancellingOp → Bool
  | .loadSnapshot => false
  | _ => true

inductive CancellingPc where
  | entered
  | cancelled
  /-- Inside `mutex_`. -/
  | locked
  | leaving
  deriving DecidableEq, Repr

structure CancellingCall where
  op : CancellingOp
  pc : CancellingPc
  deriving DecidableEq, Repr

inductive WorkerPc where
  /-- At its wait: asleep if it is in the wait set, and about to test its predicate otherwise. -/
  | loop
  | taken (epoch : ℕ)
  | entered (epoch : ℕ)
  /-- Past the check of the epoch. -/
  | admitted
  | capturing
  /-- Releasing the locks of the capture, which has thrown if `failed`. -/
  | captured (failed : Bool)
  | saving
  /-- In the catch block. -/
  | failed
  /-- Before `checkpoint_active_ = false`. -/
  | finishing
  /-- Before `notify_all`. -/
  | notifying
  deriving DecidableEq, Repr

/-- Who holds `mutex_`. -/
inductive MutexHolder where
  | worker
  | call
  | clear
  deriving DecidableEq, Repr

/-- The holder of `mutex_` locks all shards in order, and unlocks them. -/
inductive LockStage where
  | acquiring (n : ℕ)
  | releasing (n : ℕ)
  deriving DecidableEq, Repr

structure Signals where
  shards : Shard → ShardLock := fun _ => .free
  /-- Calls past `CheckCheckpointError` that wait for their shard. -/
  calling : ℕ := 0
  writesSinceSnapshot : ℕ := 0
  checkpointRequested : Bool := false
  checkpointActive : Bool := false
  checkpointEpoch : ℕ := 0
  checkpointError : Bool := false
  worker : WorkerPc := .loop
  /-- The holder of `snapshot_mutex_`, unless it is the worker. -/
  call : Option CancellingCall := none
  mutex : Option (MutexHolder × LockStage) := none
  waitSet : List Sleeper := []
  /-- Calls of `WaitForCheckpoints` that are about to test their predicate. -/
  testing : List ℕ := []

inductive SignalLabel where
  | enterCall
  | lockShard (i : Shard)
  /-- The append throws. -/
  | appendThrows (i : Shard)
  /-- The append, the mutation and the counter. -/
  | count (i : Shard)
  /-- `ScheduleCheckpoint`; its `notify_one` wakes this thread. -/
  | schedule (i : Shard) (woken : Option Sleeper)
  | unlockShard (i : Shard)
  | enter (op : CancellingOp)
  /-- The next step of the call that holds `snapshot_mutex_`. -/
  | call
  | callThrows
  /-- `Clear` takes `mutex_`. -/
  | enterClear
  | clear
  /-- The holder of `mutex_` takes or releases the next lock. -/
  | nextLock
  | worker
  | workerThrows
  | waitForCheckpoints (id : ℕ)
  /-- `WaitForCheckpoints` tests its predicate. -/
  | test (id : ℕ)
  /-- A spurious wake-up. -/
  | wakeUp (sleeper : Sleeper)

namespace Signals

variable (s : Signals)

def setShard (i : Shard) (lock : ShardLock) : Signals :=
  { s with shards := Function.update s.shards i lock }

/-- A thread leaves the wait set and goes to test its predicate. -/
def wake : Sleeper → Signals
  | .worker => { s with waitSet := s.waitSet.erase .worker }
  | .caller id => { s with waitSet := s.waitSet.erase (.caller id), testing := s.testing ++ [id] }

theorem wake_eq (sleeper : Sleeper) : ∃ waitSet testing, waitSet.Sublist s.waitSet ∧
    s.wake sleeper = { s with waitSet := waitSet, testing := testing } := by
  cases sleeper <;> exact ⟨_, _, List.erase_sublist, rfl⟩

/-- `notify_one`: anyone in the wait set, or nobody if it is empty. -/
def notifyOne : Option Sleeper → Option Signals
  | some sleeper => if sleeper ∈ s.waitSet then some (s.wake sleeper) else none
  | none => if s.waitSet = [] then some s else none

/-- `notify_all`. -/
def notifyAll : Signals :=
  { s with
    waitSet := []
    testing := s.testing ++ s.waitSet.filterMap fun
      | .worker => none
      | .caller id => some id }

/-- The worker holds `snapshot_mutex_`. -/
def workerInside : Bool :=
  match s.worker with
  | .entered _ | .admitted | .capturing | .captured _ | .saving => true
  | _ => false

/-- All shards are locked by this thread. -/
def hasAll (holder : MutexHolder) : Bool := s.mutex == some (holder, .acquiring kShardCount)

/-- The holder of `mutex_` is done with the shards. -/
def release (holder : MutexHolder) : Signals := { s with mutex := some (holder, .releasing 0) }

def nextLock : Option Signals :=
  match s.mutex with
  | none => none
  | some (holder, .acquiring n) =>
    if h : n < kShardCount then
      if s.shards ⟨n,h⟩ = .free then
        some { s.setShard ⟨n,h⟩ .all with mutex := some (holder, .acquiring (n+1)) }
      else none
    else none
  | some (holder, .releasing n) =>
    if h : n < kShardCount then
      some { s.setShard ⟨n,h⟩ .free with mutex := some (holder, .releasing (n+1)) }
    else some { s with mutex := none }

def callStep : Option Signals :=
  match s.call with
  | none => none
  | some ⟨op, .entered⟩ =>
    -- `CancelPendingCheckpoint`, which notifies nobody
    some { s with
      checkpointEpoch := s.checkpointEpoch+1
      checkpointRequested := false
      call := some ⟨op, .cancelled⟩ }
  | some ⟨op, .cancelled⟩ =>
    if s.mutex = none then some { s with
      mutex := some (.call, .acquiring 0)
      call := some ⟨op, .locked⟩ }
    else none
  | some ⟨op, .locked⟩ =>
    if s.hasAll .call then some { s.release .call with
      writesSinceSnapshot := if op.resets then 0 else s.writesSinceSnapshot
      call := some ⟨op, .leaving⟩ }
    else none
  | some ⟨_, .leaving⟩ =>
    if s.mutex.any (fun h => h.1 == .call) then none else some { s with call := none }

/-- An exception in a call that has all locks. -/
def callThrows : Option Signals :=
  match s.call with
  | some ⟨op, .locked⟩ =>
    if s.hasAll .call then some { s.release .call with call := some ⟨op, .leaving⟩ } else none
  | _ => none

def workerStep : Option Signals :=
  match s.worker with
  | .loop =>
    if .worker ∈ s.waitSet then none
    else if s.checkpointRequested then some { s with
      checkpointRequested := false
      checkpointActive := true
      worker := .taken s.checkpointEpoch }
    else some { s with waitSet := .worker :: s.waitSet }
  | .taken epoch => if s.call = none then some { s with worker := .entered epoch } else none
  | .entered epoch =>
    some { s with worker := if epoch = s.checkpointEpoch then .admitted else .finishing }
  | .admitted =>
    if s.mutex = none then some { s with
      mutex := some (.worker, .acquiring 0)
      worker := .capturing }
    else none
  | .capturing =>
    if s.hasAll .worker then some { s.release .worker with
      writesSinceSnapshot := 0
      worker := .captured false }
    else none
  | .captured failed =>
    if s.mutex.any (fun h => h.1 == .worker) then none
    else some { s with worker := if failed then .failed else .saving }
  | .saving => some { s with worker := .finishing }
  | .failed => some { s with
      checkpointError := true
      checkpointRequested := false
      worker := .finishing }
  | .finishing => some { s with checkpointActive := false, worker := .notifying }
  | .notifying => some { s.notifyAll with worker := .loop }

/-- An exception out of `CurrentOffset` or `SaveVerified`. -/
def workerThrows : Option Signals :=
  match s.worker with
  | .capturing =>
    if s.hasAll .worker then some { s.release .worker with worker := .captured true } else none
  | .saving => some { s with worker := .failed }
  | _ => none

def step : SignalLabel → Option Signals
  | .enterCall =>
    if s.checkpointError then some s else some { s with calling := s.calling+1 }
  | .lockShard i =>
    if 0 < s.calling ∧ s.shards i = .free then
      some { s.setShard i (.writer .locked) with calling := s.calling-1 }
    else none
  | .appendThrows i =>
    if s.shards i = .writer .locked then some (s.setShard i .free) else none
  | .count i =>
    if s.shards i = .writer .locked then
      some { s.setShard i (.writer (.counted (s.writesSinceSnapshot+1 == kSnapshotInterval))) with
        writesSinceSnapshot := s.writesSinceSnapshot+1 }
    else none
  | .schedule i woken =>
    if s.shards i = .writer (.counted true) then
      { s.setShard i (.writer .scheduled) with checkpointRequested := true }.notifyOne woken
    else none
  | .unlockShard i =>
    if s.shards i = .writer (.counted false) ∨ s.shards i = .writer .scheduled then
      some (s.setShard i .free)
    else none
  | .enter op =>
    if s.call = none ∧ s.workerInside = false then some { s with call := some ⟨op, .entered⟩ }
    else none
  | .call => s.callStep
  | .callThrows => s.callThrows
  | .enterClear =>
    if s.mutex = none then some { s with mutex := some (.clear, .acquiring 0) } else none
  | .clear =>
    if s.hasAll .clear then some { s.release .clear with writesSinceSnapshot := 0 } else none
  | .nextLock => s.nextLock
  | .worker => s.workerStep
  | .workerThrows => s.workerThrows
  | .waitForCheckpoints id =>
    -- the calls have distinct names
    if id ∉ s.testing ∧ .caller id ∉ s.waitSet then some { s with testing := s.testing ++ [id] }
    else none
  | .test id =>
    if id ∈ s.testing then
      if s.checkpointRequested || s.checkpointActive then some { s with
        testing := s.testing.erase id
        waitSet := s.waitSet ++ [.caller id] }
      else some { s with testing := s.testing.erase id }
    else none
  | .wakeUp sleeper => if sleeper ∈ s.waitSet then some (s.wake sleeper) else none

/-- What a step can do. -/
inductive Steps : SignalLabel → Signals → Prop where
  | enterCallThrows (herr : s.checkpointError = true) : Steps .enterCall s
  | enterCall (herr : s.checkpointError = false) :
      Steps .enterCall { s with calling := s.calling+1 }
  | lockShard (i : Shard) (hfree : s.shards i = .free) :
      Steps (.lockShard i) { s.setShard i (.writer .locked) with calling := s.calling-1 }
  | appendThrows (i : Shard) (hi : s.shards i = .writer .locked) :
      Steps (.appendThrows i) (s.setShard i .free)
  | count (i : Shard) (hi : s.shards i = .writer .locked) :
      Steps (.count i)
        { s.setShard i (.writer (.counted (s.writesSinceSnapshot+1 == kSnapshotInterval))) with
          writesSinceSnapshot := s.writesSinceSnapshot+1 }
  | schedule (i : Shard) (woken : Sleeper) (hi : s.shards i = .writer (.counted true))
      (hwoken : woken ∈ s.waitSet) :
      Steps (.schedule i (some woken))
        ({ s.setShard i (.writer .scheduled) with checkpointRequested := true }.wake woken)
  | scheduleAlone (i : Shard) (hi : s.shards i = .writer (.counted true))
      (hempty : s.waitSet = []) :
      Steps (.schedule i none)
        { s.setShard i (.writer .scheduled) with checkpointRequested := true }
  | unlockShard (i : Shard)
      (hi : s.shards i = .writer (.counted false) ∨ s.shards i = .writer .scheduled) :
      Steps (.unlockShard i) (s.setShard i .free)
  | enter (op : CancellingOp) (hcall : s.call = none) (hworker : s.workerInside = false) :
      Steps (.enter op) { s with call := some ⟨op, .entered⟩ }
  | cancel (op : CancellingOp) (hcall : s.call = some ⟨op, .entered⟩) :
      Steps .call { s with
        checkpointEpoch := s.checkpointEpoch+1
        checkpointRequested := false
        call := some ⟨op, .cancelled⟩ }
  | callLock (op : CancellingOp) (hcall : s.call = some ⟨op, .cancelled⟩)
      (hmutex : s.mutex = none) :
      Steps .call { s with
        mutex := some (.call, .acquiring 0)
        call := some ⟨op, .locked⟩ }
  | callDone (op : CancellingOp) (hcall : s.call = some ⟨op, .locked⟩)
      (hall : s.hasAll .call = true) :
      Steps .call { s.release .call with
        writesSinceSnapshot := if op.resets then 0 else s.writesSinceSnapshot
        call := some ⟨op, .leaving⟩ }
  | callThrows (op : CancellingOp) (hcall : s.call = some ⟨op, .locked⟩)
      (hall : s.hasAll .call = true) :
      Steps .callThrows { s.release .call with call := some ⟨op, .leaving⟩ }
  | callLeave (op : CancellingOp) (hcall : s.call = some ⟨op, .leaving⟩) :
      Steps .call { s with call := none }
  | enterClear (hmutex : s.mutex = none) :
      Steps .enterClear { s with mutex := some (.clear, .acquiring 0) }
  | clear (hall : s.hasAll .clear = true) :
      Steps .clear { s.release .clear with writesSinceSnapshot := 0 }
  | lockNext (holder : MutexHolder) (n : ℕ) (hn : n < kShardCount)
      (hmutex : s.mutex = some (holder, .acquiring n)) (hfree : s.shards ⟨n,hn⟩ = .free) :
      Steps .nextLock { s.setShard ⟨n,hn⟩ .all with mutex := some (holder, .acquiring (n+1)) }
  | unlockNext (holder : MutexHolder) (n : ℕ) (hn : n < kShardCount)
      (hmutex : s.mutex = some (holder, .releasing n)) :
      Steps .nextLock { s.setShard ⟨n,hn⟩ .free with mutex := some (holder, .releasing (n+1)) }
  | unlocked (holder : MutexHolder) (n : ℕ) (hn : kShardCount ≤ n)
      (hmutex : s.mutex = some (holder, .releasing n)) : Steps .nextLock { s with mutex := none }
  | take (hworker : s.worker = .loop) (hawake : .worker ∉ s.waitSet)
      (hreq : s.checkpointRequested = true) :
      Steps .worker { s with
        checkpointRequested := false
        checkpointActive := true
        worker := .taken s.checkpointEpoch }
  | sleep (hworker : s.worker = .loop) (hawake : .worker ∉ s.waitSet)
      (hreq : s.checkpointRequested = false) :
      Steps .worker { s with waitSet := .worker :: s.waitSet }
  | workerEnter (epoch : ℕ) (hworker : s.worker = .taken epoch) (hcall : s.call = none) :
      Steps .worker { s with worker := .entered epoch }
  | proceed (epoch : ℕ) (hworker : s.worker = .entered epoch) (hepoch : epoch = s.checkpointEpoch) :
      Steps .worker { s with worker := .admitted }
  | giveUp (epoch : ℕ) (hworker : s.worker = .entered epoch) (hepoch : epoch ≠ s.checkpointEpoch) :
      Steps .worker { s with worker := .finishing }
  | workerLock (hworker : s.worker = .admitted) (hmutex : s.mutex = none) :
      Steps .worker { s with mutex := some (.worker, .acquiring 0), worker := .capturing }
  | capture (hworker : s.worker = .capturing) (hall : s.hasAll .worker = true) :
      Steps .worker { s.release .worker with
        writesSinceSnapshot := 0
        worker := .captured false }
  | captureThrows (hworker : s.worker = .capturing) (hall : s.hasAll .worker = true) :
      Steps .workerThrows { s.release .worker with worker := .captured true }
  | captured (failed : Bool) (hworker : s.worker = .captured failed)
      (hfree : s.mutex.any (fun h => h.1 == .worker) = false) :
      Steps .worker { s with worker := if failed then .failed else .saving }
  | saved (hworker : s.worker = .saving) : Steps .worker { s with worker := .finishing }
  | saveThrows (hworker : s.worker = .saving) : Steps .workerThrows { s with worker := .failed }
  | recordError (hworker : s.worker = .failed) :
      Steps .worker { s with
        checkpointError := true
        checkpointRequested := false
        worker := .finishing }
  | finish (hworker : s.worker = .finishing) :
      Steps .worker { s with checkpointActive := false, worker := .notifying }
  | notifyAll (hworker : s.worker = .notifying) :
      Steps .worker { s.notifyAll with worker := .loop }
  | waitForCheckpoints (id : ℕ) :
      Steps (.waitForCheckpoints id) { s with testing := s.testing ++ [id] }
  | wait (id : ℕ) (hbusy : s.checkpointRequested = true ∨ s.checkpointActive = true) :
      Steps (.test id) { s with
        testing := s.testing.erase id
        waitSet := s.waitSet ++ [.caller id] }
  | waited (id : ℕ) (hidle : s.checkpointRequested = false ∧ s.checkpointActive = false) :
      Steps (.test id) { s with testing := s.testing.erase id }
  | wakeUp (sleeper : Sleeper) (hsleeper : sleeper ∈ s.waitSet) :
      Steps (.wakeUp sleeper) (s.wake sleeper)

variable {s} {t : Signals} {l : SignalLabel}

theorem steps_of_callStep (h : s.callStep = some t) : s.Steps .call t := by
  unfold callStep at h
  split at h
  · cases h
  · rename_i op hcall
    obtain rfl := Option.some.inj h
    exact .cancel op hcall
  · rename_i op hcall
    split at h
    · obtain rfl := Option.some.inj h
      exact .callLock op hcall ‹_›
    · cases h
  · rename_i op hcall
    split at h
    · obtain rfl := Option.some.inj h
      exact .callDone op hcall ‹_›
    · cases h
  · rename_i op hcall
    split at h
    · cases h
    · obtain rfl := Option.some.inj h
      exact .callLeave op hcall

theorem steps_of_workerStep (h : s.workerStep = some t) : s.Steps .worker t := by
  unfold workerStep at h
  split at h
  · rename_i hworker
    split at h
    · cases h
    · split at h
      · obtain rfl := Option.some.inj h
        exact .take hworker ‹_› ‹_›
      · rename_i hawake hreq
        obtain rfl := Option.some.inj h
        exact .sleep hworker hawake (Bool.eq_false_of_not_eq_true hreq)
  · split at h
    · obtain rfl := Option.some.inj h
      exact .workerEnter _ ‹_› ‹_›
    · cases h
  · rename_i epoch hworker
    obtain rfl := Option.some.inj h
    by_cases hepoch : epoch = s.checkpointEpoch
    · rw [if_pos hepoch]
      exact .proceed epoch hworker hepoch
    · rw [if_neg hepoch]
      exact .giveUp epoch hworker hepoch
  · split at h
    · obtain rfl := Option.some.inj h
      exact .workerLock ‹_› ‹_›
    · cases h
  · split at h
    · obtain rfl := Option.some.inj h
      exact .capture ‹_› ‹_›
    · cases h
  · split at h
    · cases h
    · rename_i hfree
      obtain rfl := Option.some.inj h
      exact .captured _ ‹_› (Bool.eq_false_of_not_eq_true hfree)
  · obtain rfl := Option.some.inj h
    exact .saved ‹_›
  · obtain rfl := Option.some.inj h
    exact .recordError ‹_›
  · obtain rfl := Option.some.inj h
    exact .finish ‹_›
  · obtain rfl := Option.some.inj h
    exact .notifyAll ‹_›

theorem steps_of_nextLock (h : s.nextLock = some t) : s.Steps .nextLock t := by
  unfold nextLock at h
  split at h
  · cases h
  · rename_i holder n hmutex
    split at h
    · split at h
      · obtain rfl := Option.some.inj h
        exact .lockNext holder n _ hmutex ‹_›
      · cases h
    · cases h
  · rename_i holder n hmutex
    split at h
    · obtain rfl := Option.some.inj h
      exact .unlockNext holder n _ hmutex
    · rename_i hn
      obtain rfl := Option.some.inj h
      exact .unlocked holder n (Nat.le_of_not_lt hn) hmutex

theorem steps_of_step (h : s.step l = some t) : s.Steps l t := by
  cases l with
  | enterCall =>
    simp only [step] at h
    split at h
    · obtain rfl := Option.some.inj h
      exact .enterCallThrows ‹_›
    · rename_i herr
      obtain rfl := Option.some.inj h
      exact .enterCall (Bool.eq_false_of_not_eq_true herr)
  | lockShard i =>
    simp only [step] at h
    split at h
    · rename_i hc
      obtain rfl := Option.some.inj h
      exact .lockShard i hc.2
    · cases h
  | appendThrows i =>
    simp only [step] at h
    split at h
    · obtain rfl := Option.some.inj h
      exact .appendThrows i ‹_›
    · cases h
  | count i =>
    simp only [step] at h
    split at h
    · obtain rfl := Option.some.inj h
      exact .count i ‹_›
    · cases h
  | schedule i woken =>
    simp only [step] at h
    split at h
    · cases woken with
      | none =>
        simp only [notifyOne] at h
        split at h
        · obtain rfl := Option.some.inj h
          exact .scheduleAlone i ‹_› ‹_›
        · cases h
      | some woken =>
        simp only [notifyOne] at h
        split at h
        · obtain rfl := Option.some.inj h
          exact .schedule i woken ‹_› ‹_›
        · cases h
    · cases h
  | unlockShard i =>
    simp only [step] at h
    split at h
    · obtain rfl := Option.some.inj h
      exact .unlockShard i ‹_›
    · cases h
  | enter op =>
    simp only [step] at h
    split at h
    · rename_i hc
      obtain rfl := Option.some.inj h
      exact .enter op hc.1 hc.2
    · cases h
  | call => exact steps_of_callStep h
  | callThrows =>
    simp only [step, Signals.callThrows] at h
    split at h
    · split at h
      · obtain rfl := Option.some.inj h
        exact .callThrows _ ‹_› ‹_›
      · cases h
    · cases h
  | enterClear =>
    simp only [step] at h
    split at h
    · obtain rfl := Option.some.inj h
      exact .enterClear ‹_›
    · cases h
  | clear =>
    simp only [step] at h
    split at h
    · obtain rfl := Option.some.inj h
      exact .clear ‹_›
    · cases h
  | nextLock => exact steps_of_nextLock h
  | worker => exact steps_of_workerStep h
  | workerThrows =>
    simp only [step, Signals.workerThrows] at h
    split at h
    · split at h
      · obtain rfl := Option.some.inj h
        exact .captureThrows ‹_› ‹_›
      · cases h
    · obtain rfl := Option.some.inj h
      exact .saveThrows ‹_›
    · cases h
  | waitForCheckpoints id =>
    simp only [step] at h
    split at h
    · obtain rfl := Option.some.inj h
      exact .waitForCheckpoints id
    · cases h
  | test id =>
    simp only [step] at h
    split at h
    · split at h
      · rename_i hbusy
        obtain rfl := Option.some.inj h
        exact .wait id (Bool.or_eq_true_iff.mp hbusy)
      · rename_i hidle
        obtain rfl := Option.some.inj h
        exact .waited id (Bool.or_eq_false_iff.mp (Bool.eq_false_of_not_eq_true hidle))
    · cases h
  | wakeUp sleeper =>
    simp only [step] at h
    split at h
    · obtain rfl := Option.some.inj h
      exact .wakeUp sleeper ‹_›
    · cases h

/-! ### Writes -/

/-- A `Set` or `Delete` that makes no checkpoint due. -/
def writeLabels : List SignalLabel := [.enterCall, .lockShard 0, .count 0, .unlockShard 0]

/-- One that does; its request wakes this thread. -/
def dueLabels (woken : Sleeper) : List SignalLabel :=
  [.enterCall, .lockShard 0, .count 0, .schedule 0 (some woken), .unlockShard 0]

/-- The trigger fires at one value of the counter only. -/
theorem run_writes (hfree : s.shards 0 = .free) (herr : s.checkpointError = false) (n : ℕ)
    (hn : s.writesSinceSnapshot+n < kSnapshotInterval ∨ kSnapshotInterval ≤ s.writesSinceSnapshot) :
    run Signals.step s (List.replicate n writeLabels).flatten =
      some { s with writesSinceSnapshot := s.writesSinceSnapshot+n } := by
  induction n with
  | zero => rfl
  | succ n ih =>
    have hback : Function.update s.shards 0 .free = s.shards := by
      rw [← hfree]
      exact Function.update_eq_self 0 s.shards
    have hdue : s.writesSinceSnapshot+(n+1) ≠ kSnapshotInterval := by omega
    rw [List.replicate_succ', List.flatten_append, run_append, ih (by omega), Option.bind_some]
    simp [writeLabels, run_cons, step, setShard, hfree, herr, hdue, hback, Nat.add_assoc]

theorem run_due {woken : Sleeper} (hfree : s.shards 0 = .free) (herr : s.checkpointError = false)
    (hn : s.writesSinceSnapshot+1 = kSnapshotInterval) (hwoken : woken ∈ s.waitSet) :
    run Signals.step s (dueLabels woken) = some ({ s with
      writesSinceSnapshot := kSnapshotInterval
      checkpointRequested := true }.wake woken) := by
  have hback : Function.update s.shards 0 .free = s.shards := by
    rw [← hfree]
    exact Function.update_eq_self 0 s.shards
  cases woken <;>
    simp [dueLabels, run_cons, step, setShard, hfree, herr, hn, hback, notifyOne, hwoken, wake]

end Signals

/-- The worker falls asleep, and the thousandth write wakes it. -/
def firstDue : List SignalLabel :=
  .worker :: ((List.replicate 999 Signals.writeLabels).flatten ++ Signals.dueLabels .worker)

theorem run_firstDue : run Signals.step {} firstDue = some { ({} : Signals) with
    writesSinceSnapshot := kSnapshotInterval
    checkpointRequested := true } := by
  have hsleep : Signals.step {} .worker = some { ({} : Signals) with waitSet := [.worker] } := rfl
  rw [firstDue, run_cons, hsleep, Option.bind_some, run_append,
    Signals.run_writes rfl rfl 999 (.inl (by decide)), Option.bind_some,
    Signals.run_due rfl rfl rfl List.mem_cons_self]
  rfl

end ConcurrentKV

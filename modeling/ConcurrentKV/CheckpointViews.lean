import ConcurrentKV.CheckpointTrigger
import ConcurrentKV.KVTermination
import ConcurrentKV.LockOrder

/-! `CheckpointLoop` in its three models: with the files and the map, with the flags and who waits
for them, and as a program of lock operations. A run of the store is a run of the signals when the
data is left out, and in a run of the signals the worker follows its program. -/
namespace ConcurrentKV
open ByteCodec LockProgram Transition

/-! ### The signals of a store -/

@[simp] def WritePc.signal : WritePc → SignalPc
  | .locked | .appending _ | .appended _ | .mutated _ _ => .locked
  | .counted _ _ due => .counted due
  | .scheduled _ _ => .scheduled

/-- Readers exclude nobody that the signals know of, and whoever waits for them waits there
too. -/
@[simp] def Slot.lock : Slot → ShardLock
  | .readers _ => .free
  | .writer call => .writer call.pc.signal
  | .admin => .all

@[simp] def AdminKind.op : AdminKind → Option CancellingOp
  | .checkpoint _ => none
  | .saveSnapshot => some .saveSnapshot
  | .compactPersistence => some .compactPersistence
  | .clearPersistence => some .clearPersistence

@[simp] def AdminPc.cancelling : AdminPc → CancellingPc
  | .entered => .entered
  | .unlocking _ _ => .leaving
  | _ => .locked

/-- How far a checkpoint has come. One that failed is over for the signals when it has released
its locks. -/
@[simp] def AdminPc.workerPc (epoch : ℕ) : AdminPc → WorkerPc
  | .entered => .entered epoch
  | .locking _ => .capturing
  | .releasing _ _ _ => .captured false
  | .unlocking true n => if n < kShardCount then .captured true else .failed
  | _ => .saving

/-- The holder of `mutex_`, which the store's model leaves out. -/
@[simp] def AdminCall.mutex (call : AdminCall) : Option (MutexHolder × LockStage) :=
  match call.kind, call.pc with
  | _, .entered => none
  | .checkpoint _, .locking n => some (.worker, .acquiring (min n kShardCount))
  | .checkpoint _, .releasing _ _ n => some (.worker, .releasing n)
  | .checkpoint _, .unlocking true n =>
    if n < kShardCount then some (.worker, .releasing n) else none
  | .checkpoint _, _ => none
  | _, .locking n => some (.call, .acquiring (min n kShardCount))
  | _, .unlocking _ n => some (.call, .releasing n)
  | _, _ => some (.call, .acquiring kShardCount)

/-- The worker outside its checkpoints. -/
@[simp] def Worker.pc : Worker → WorkerPc
  | .idle | .exited => .loop
  | .taken epoch => .taken epoch
  | .failed => .failed
  | .running | .finishing => .finishing

namespace KVStore

variable (s : KVStore)

def workerPc : WorkerPc :=
  match s.admin with
  | some ⟨.checkpoint epoch, pc⟩ => pc.workerPc epoch
  | _ => s.worker.pc

/-- What the signals see of a store. Nobody sleeps: the store's model has no
`WaitForCheckpoints`, and its worker tests its predicate whenever it gets to run. -/
def signals : Signals where
  shards := Slot.lock ∘ s.slots
  calling := s.calling.length
  writesSinceSnapshot := s.writesSinceSnapshot
  checkpointRequested := s.checkpointRequested
  checkpointActive := s.checkpointActive
  checkpointEpoch := s.checkpointEpoch
  checkpointError := s.checkpointError
  worker := s.workerPc
  call := s.admin.bind fun call => call.kind.op.map fun op => ⟨op, call.pc.cancelling⟩
  mutex := s.admin.bind AdminCall.mutex

end KVStore

variable {host : ByteOrder} {hash : Bytes → ℕ} {s t : KVStore} {l : Label}

/-- The worker is in its checkpoint, and has released the shards when it has saved. -/
structure WorkerRuns (s : KVStore) : Prop where
  path : PathInv s.admin
  running : ∀ epoch, s.admin.map AdminCall.kind = some (.checkpoint epoch) → s.worker = .running
  saved : ∀ epoch n, s.admin = some ⟨.checkpoint epoch, .unlocking false n⟩ → kShardCount ≤ n

theorem WorkerRuns.step (h : WorkerRuns s) (hsteps : KVStore.Steps host hash s l t) :
    WorkerRuns t := by
  have hrunning : ∀ epoch, t.admin.map AdminCall.kind = some (.checkpoint epoch) →
      t.worker = .running := by
    intro epoch hkind
    by_cases henter : ∃ kind, l = .enter kind
    · obtain ⟨kind,rfl⟩ := henter
      cases hsteps with
      | enter kind hne => exact absurd (Option.some.inj hkind) (hne epoch)
      | writeTempFails _ _ _ _ _ _ hl => simp at hl
    · cases hsteps.passes fun kind hk => henter ⟨kind, hk⟩ with
      | stays _ hsame hworker => exact hworker.mpr (h.running epoch (hsame ▸ hkind))
      | enters _ _ _ _ hworker => exact hworker
      | leaves _ _ hfree => simp [hfree] at hkind
  refine ⟨h.path.step hsteps, hrunning, ?_⟩
  intro epoch n hadmin
  have hthrow {call : AdminCall} :
      (s.throw call).admin ≠ some ⟨.checkpoint epoch, .unlocking false n⟩ := by
    simp [KVStore.throw]
  cases hsteps with
  | captureFails | verifyFails | rotateFails | fault | writeTempFails => exact absurd hadmin hthrow
  | reset kind hs =>
    obtain ⟨rfl,-⟩ := AdminCall.mk.inj (Option.some.inj hadmin)
    exact absurd (h.path _ hs) (by simp [AdminKind.passes])
  | verified kind data walOffset hs =>
    obtain ⟨rfl,hpc⟩ := AdminCall.mk.inj (Option.some.inj hadmin)
    obtain ⟨-,rfl⟩ := AdminPc.unlocking.inj hpc
    exact le_rfl
  | syncTruncation kind wal hs =>
    obtain ⟨rfl,-⟩ := AdminCall.mk.inj (Option.some.inj hadmin)
    exact absurd (h.path _ hs) (by simp [AdminKind.passes])
  | unlock kind failed k hk hs =>
    obtain ⟨rfl,hpc⟩ := AdminCall.mk.inj (Option.some.inj hadmin)
    obtain ⟨rfl,-⟩ := AdminPc.unlocking.inj hpc
    exact absurd (h.saved epoch k hs) (by omega)
  | callThrows | call | lockShard | prepare | acknowledge | rethrow | mutate | count | schedule
  | ret | lockShared | get | wal | take | exit | recordError | finish | stop =>
    exact h.saved epoch n hadmin
  | _ => cases hadmin

theorem WorkerRuns.start {disk : Disk} {policy : DurabilityPolicy} {maxBatch : ℕ}
    (hopen : openStore host hash disk policy maxBatch = .ok s) : WorkerRuns s := by
  obtain ⟨wal,m,-,rfl⟩ := openStore_eq hopen
  exact ⟨pathInv_start, by simp [KVStore.start], by simp [KVStore.start]⟩

/-! ### A run of the store is a run of the signals -/

namespace KVStore

theorem signals_setSlot (s : KVStore) (i : Shard) (slot : Slot) :
    (s.setSlot i slot).signals = s.signals.setShard i slot.lock := by
  simp [signals, setSlot, Signals.setShard, Function.comp_update, workerPc]

/-- A step inside the append, or of a reader. -/
theorem signals_setSlot_of_lock {i : Shard} {slot : Slot} (h : slot.lock = (s.slots i).lock) :
    (s.setSlot i slot).signals = s.signals := by
  have hself : Function.update s.signals.shards i slot.lock = s.signals.shards := by
    rw [h]
    exact Function.update_eq_self ..
  rw [signals_setSlot, Signals.setShard, hself]

theorem workerPc_of_kind (h : ∀ epoch, s.admin.map AdminCall.kind ≠ some (.checkpoint epoch)) :
    s.workerPc = s.worker.pc := by
  unfold workerPc
  split
  · rename_i epoch pc hadmin
    exact absurd (by rw [hadmin]; rfl) (h epoch)
  · rfl

theorem signals_caller {i : Shard} (hsteps : Steps host hash s (.caller i) t) :
    Reaches Signals.step s.signals t.signals := by
  cases hsteps with
  | prepare _ op wal hslot =>
    have hsame : (s.setSlot i (.writer ⟨op, .appending s.wal.nextId⟩)).signals = s.signals :=
      signals_setSlot_of_lock (by rw [hslot]; rfl)
    exact hsame ▸ .refl _
  | acknowledge _ op id hslot =>
    rw [signals_setSlot_of_lock (by rw [hslot]; rfl)]
    exact .refl _
  | mutate _ op id erased hslot =>
    have hsame : (s.setSlot i (.writer ⟨op, .mutated id erased⟩)).signals = s.signals :=
      signals_setSlot_of_lock (by rw [hslot]; rfl)
    exact hsame ▸ .refl _
  | rethrow _ op id e hslot =>
    refine .of_step (l := .appendThrows i) ?_
    have hlock : s.signals.shards i = .writer .locked := by
      simp [signals, hslot]
    rw [signals_setSlot, Signals.step, if_pos hlock, Slot.lock]
  | count _ op id erased hslot =>
    refine .of_step (l := .count i) ?_
    simp [Signals.step, signals, hslot, Signals.setShard, setSlot, Function.comp_update, workerPc]
  | schedule _ op id erased hslot =>
    refine .of_step (l := .schedule i none) ?_
    simp [Signals.step, signals, hslot, Signals.setShard, setSlot, Function.comp_update, workerPc,
      Signals.notifyOne]
  | ret _ op pc id erased hslot hpc =>
    refine .of_step (l := .unlockShard i) ?_
    rcases hpc with rfl | rfl <;>
      simp [Signals.step, signals, hslot, Signals.setShard, setSlot, Function.comp_update, workerPc]
  | writeTempFails _ _ _ _ _ _ hl => simp at hl

theorem signals_worker (h : WorkerRuns s) (hsteps : Steps host hash s .worker t) :
    Reaches Signals.step s.signals t.signals := by
  -- outside a checkpoint the worker's own program counter is what counts
  have hout (hne : s.worker ≠ .running) (epoch : ℕ) :
      s.admin.map AdminCall.kind ≠ some (.checkpoint epoch) :=
    fun hkind => hne (h.running epoch hkind)
  cases hsteps with
  | take hworker hreq =>
    have hfrom := workerPc_of_kind (hout (by simp [hworker]))
    have hto : { s with
        checkpointRequested := false
        checkpointActive := true
        worker := .taken s.checkpointEpoch }.workerPc = .taken s.checkpointEpoch :=
      workerPc_of_kind (hout (by simp [hworker]))
    refine .of_step (l := .worker) ?_
    simp [Signals.step, Signals.workerStep, signals, hfrom, hto, hworker, hreq]
  | exit hworker =>
    have hfrom := workerPc_of_kind (hout (by simp [hworker]))
    have hto : { s with worker := .exited }.workerPc = .loop :=
      workerPc_of_kind (hout (by simp [hworker]))
    have hsame : { s with worker := .exited }.signals = s.signals := by
      simp [signals, hfrom, hto, hworker]
    exact hsame ▸ .refl _
  | enterCheckpoint epoch hworker hadmin =>
    refine .of_step (l := .worker) ?_
    simp [Signals.step, Signals.workerStep, signals, hadmin, hworker, workerPc]
  | recordError hworker =>
    have hfrom := workerPc_of_kind (hout (by simp [hworker]))
    have hto : { s with
        checkpointError := true
        checkpointRequested := false
        worker := .finishing }.workerPc = .finishing :=
      workerPc_of_kind (hout (by simp [hworker]))
    refine .of_step (l := .worker) ?_
    simp [Signals.step, Signals.workerStep, signals, hfrom, hto, hworker]
  | finish hworker =>
    have hfrom := workerPc_of_kind (hout (by simp [hworker]))
    have hto : { s with checkpointActive := false, worker := .idle }.workerPc = .loop :=
      workerPc_of_kind (hout (by simp [hworker]))
    -- the store has no step between the flag and `notify_all`
    refine ⟨[.worker, .worker], ?_⟩
    simp [run_cons, Signals.step, Signals.workerStep, Signals.notifyAll, signals, hfrom, hto,
      hworker]
  | writeTempFails _ _ _ _ _ _ hl => simp at hl

/-- An exception behind the locking of the shards. -/
theorem signals_throw (h : WorkerRuns s) {kind : AdminKind} {pc : AdminPc}
    (hadmin : s.admin = some ⟨kind,pc⟩)
    (hpc : pc.mayThrow = true ∨ ∃ data walOffset, pc = .saving .begin data walOffset) :
    Reaches Signals.step s.signals (s.throw ⟨kind,pc⟩).signals := by
  have hpath := h.path _ hadmin
  cases kind with
  | checkpoint epoch =>
    refine .of_step (l := .workerThrows) ?_
    cases pc with
    | saving stage data walOffset =>
      simp [Signals.step, Signals.workerThrows, signals, hadmin, workerPc, throw]
    | rotating | removingSnapshot | removingTemp | syncingRemoval => cases hpath
    | _ => simp [AdminPc.mayThrow] at hpc
  | _ =>
    refine .of_step (l := .callThrows) ?_
    cases pc with
    | saving | rotating | removingSnapshot | removingTemp | syncingRemoval =>
      simp [Signals.step, Signals.callThrows, signals, hadmin, workerPc, throw, Signals.hasAll,
        Signals.release]
    | _ => simp [AdminPc.mayThrow] at hpc

theorem signals_admin (h : WorkerRuns s) (hsteps : Steps host hash s .admin t) :
    Reaches Signals.step s.signals t.signals := by
  have hsame {t : KVStore} (heq : t.signals = s.signals) :
      Reaches Signals.step s.signals t.signals := heq ▸ .refl _
  cases hsteps with
  | cancelled epoch hadmin hepoch =>
    refine .of_step (l := .worker) ?_
    simp [Signals.step, Signals.workerStep, signals, hadmin, workerPc, leave, hepoch]
  | checked epoch hadmin hepoch =>
    -- what is one step of the store is the check of the epoch and the lock of `mutex_`
    refine ⟨[.worker, .worker], ?_⟩
    simp [run_cons, Signals.step, Signals.workerStep, signals, hadmin, workerPc, hepoch]
  | cancel kind hkind hadmin =>
    -- here too `mutex_` is locked in the step that the store has for cancelling
    refine ⟨[.call, .call], ?_⟩
    cases kind with
    | checkpoint epoch => exact absurd rfl (hkind epoch)
    | _ =>
      simp [run_cons, Signals.step, Signals.callStep, signals, hadmin, workerPc]
  | lock kind n hn hadmin hslot =>
    have hmin : min n kShardCount = n := Nat.min_eq_left hn.le
    have hnext : n+1 ≤ kShardCount := hn
    refine .of_step (l := .nextLock) ?_
    cases kind <;>
      simp [Signals.step, Signals.nextLock, signals, hadmin, workerPc, hmin, hnext, hn, hslot,
        Signals.setShard, setSlot, Function.comp_update]
  | captureFails kind n hn hadmin =>
    cases kind with
    | checkpoint epoch =>
      refine .of_step (l := .workerThrows) ?_
      simp [Signals.step, Signals.workerThrows, signals, hadmin, workerPc, throw, Signals.hasAll,
        Signals.release, hn, NeZero.ne kShardCount]
    | _ =>
      refine .of_step (l := .callThrows) ?_
      simp [Signals.step, Signals.callThrows, signals, hadmin, workerPc, throw, Signals.hasAll,
        Signals.release, hn]
  | captureCheckpoint epoch n offset hn hadmin =>
    refine .of_step (l := .worker) ?_
    simp [Signals.step, Signals.workerStep, signals, hadmin, workerPc, Signals.hasAll,
      Signals.release, hn]
  | captureSave n offset hn hadmin | captureCompact n hn hadmin | captureClear n hn hadmin =>
    -- the signals know nothing of the call between its locks and its return
    refine hsame ?_
    simp [signals, hadmin, workerPc, hn]
  | release kind data walOffset n hn hadmin =>
    have hpath := h.path _ hadmin
    cases kind with
    | checkpoint epoch =>
      refine .of_step (l := .nextLock) ?_
      simp [Signals.step, Signals.nextLock, signals, hadmin, workerPc, hn, Signals.setShard,
        setSlot, Function.comp_update]
    | _ => cases hpath
  | released kind data walOffset n hn hadmin =>
    have hpath := h.path _ hadmin
    cases kind with
    | checkpoint epoch =>
      -- `mutex_` goes behind the last shard, and then the worker saves
      refine ⟨[.nextLock, .worker], ?_⟩
      simp [run_cons, Signals.step, Signals.nextLock, Signals.workerStep, signals, hadmin, workerPc,
        Nat.not_lt.mpr hn]
    | _ => cases hpath
  | syncTemp kind data walOffset hadmin | rename kind data walOffset hadmin
  | syncDirectory kind data walOffset hadmin | verified kind data walOffset hadmin
  | rotate kind wal hadmin | syncTruncation kind wal hadmin | removeSnapshot kind hadmin
  | removeTemp kind hadmin | syncRemoval kind hadmin =>
    refine hsame ?_
    cases kind <;>
      simp [signals, hadmin, workerPc, AdminKind.afterSave, AdminKind.afterClear]
  | verifyFails kind data walOffset hadmin => exact signals_throw h hadmin (.inl rfl)
  | rotateFails kind hadmin => exact signals_throw h hadmin (.inl rfl)
  | reset kind hadmin =>
    have hpath := h.path _ hadmin
    cases kind with
    | checkpoint epoch => cases hpath
    | _ =>
      refine .of_step (l := .call) ?_
      simp [Signals.step, Signals.callStep, signals, hadmin, workerPc, CancellingOp.resets,
        Signals.hasAll, Signals.release]
  | unlock kind failed n hn hadmin =>
    cases kind with
    | checkpoint epoch =>
      cases failed with
      | false => exact absurd (h.saved epoch n hadmin) (Nat.not_le.mpr hn)
      | true =>
        by_cases hlast : n+1 < kShardCount
        · refine .of_step (l := .nextLock) ?_
          simp [Signals.step, Signals.nextLock, signals, hadmin, workerPc, hn, hlast,
            Signals.setShard, setSlot, Function.comp_update]
        · -- with the last shard `mutex_` and `snapshot_mutex_` go as well
          refine ⟨[.nextLock, .nextLock, .worker], ?_⟩
          simp [run_cons, Signals.step, Signals.nextLock, Signals.workerStep, signals, hadmin,
            workerPc, hn, hlast, Signals.setShard, setSlot, Function.comp_update]
    | _ =>
      refine .of_step (l := .nextLock) ?_
      simp [Signals.step, Signals.nextLock, signals, hadmin, workerPc, hn, Signals.setShard,
        setSlot, Function.comp_update]
  | leave kind failed n hn hadmin =>
    cases kind with
    | checkpoint epoch =>
      cases failed with
      | false =>
        refine .of_step (l := .worker) ?_
        simp [Signals.step, Signals.workerStep, signals, hadmin, workerPc, leave]
      | true =>
        refine hsame ?_
        simp [signals, hadmin, workerPc, leave, Nat.not_lt.mpr hn]
    | _ =>
      -- `mutex_` goes, and then `snapshot_mutex_`
      refine ⟨[.nextLock, .call], ?_⟩
      simp [run_cons, Signals.step, Signals.nextLock, Signals.callStep, signals, hadmin, workerPc,
        leave, Nat.not_lt.mpr hn]
  | writeTempFails _ _ _ _ _ _ hl => simp at hl

/-- A step of the store is no, one or a few steps of the signals. -/
theorem signals_step (h : WorkerRuns s) (hsteps : Steps host hash s l t) :
    Reaches Signals.step s.signals t.signals := by
  have hreader {key : Bytes} {keys keys' : List Bytes}
      (hslot : s.slots (shardIndex hash key) = .readers keys) :
      Reaches Signals.step s.signals
        (s.setSlot (shardIndex hash key) (.readers keys')).signals := by
    rw [signals_setSlot_of_lock (by rw [hslot]; rfl)]
    exact .refl _
  cases l with
  | call op =>
    cases hsteps with
    | callThrows => exact .refl _
    | call _ herr =>
      refine .of_step (l := .enterCall) ?_
      simp [Signals.step, signals, herr, workerPc]
    | writeTempFails _ _ _ _ _ _ hl => simp at hl
  | lockShard op =>
    cases hsteps with
    | lockShard _ hcall hslot =>
      have hpos := List.length_pos_of_mem hcall
      refine .of_step (l := .lockShard (shardIndex hash op.key)) ?_
      simp [Signals.step, signals, hslot, hpos, List.length_erase_of_mem hcall, Signals.setShard,
        setSlot, Function.comp_update, workerPc]
    | writeTempFails _ _ _ _ _ _ hl => simp at hl
  | caller i => exact signals_caller hsteps
  | lockShared key =>
    cases hsteps with
    | lockShared _ keys hslot => exact hreader hslot
    | writeTempFails _ _ _ _ _ _ hl => simp at hl
  | get key value =>
    cases hsteps with
    | get _ _ keys hslot => exact hreader hslot
    | writeTempFails _ _ _ _ _ _ hl => simp at hl
  | wal w =>
    cases hsteps with
    | wal => exact .refl _
    | writeTempFails _ _ _ _ _ _ hl => simp at hl
  | enter kind =>
    cases hsteps with
    | enter _ hkind hadmin =>
      have hinside : s.signals.workerInside = false := by
        cases hworker : s.worker <;>
          simp [Signals.workerInside, signals, workerPc, hadmin, hworker]
      have henter {op : CancellingOp} (hop : kind.op = some op)
          (hpc : { s with admin := some ⟨kind, .entered⟩ }.workerPc = s.workerPc) :
          Reaches Signals.step s.signals { s with admin := some ⟨kind, .entered⟩ }.signals := by
        refine .of_step (l := .enter op) ?_
        rw [Signals.step, if_pos ⟨by simp [signals, hadmin], hinside⟩]
        simp [-AdminKind.op, signals, hadmin, hop, hpc]
      cases kind with
      | checkpoint epoch => exact absurd rfl (hkind epoch)
      | _ => exact henter rfl (by simp [workerPc, hadmin])
    | writeTempFails _ _ _ _ _ _ hl => simp at hl
  | admin => exact signals_admin h hsteps
  | writeTemp entries =>
    cases hsteps with
    | writeTemp kind data walOffset _ bytes hadmin =>
      have hsame : { s with
          temp := some bytes
          admin := some ⟨kind, .saving .tempWritten data walOffset⟩ }.signals = s.signals := by
        cases kind <;>
          simp [signals, hadmin, workerPc]
      exact hsame ▸ .refl _
    | writeTempFails _ kind data walOffset temp hadmin =>
      exact signals_throw h hadmin (.inr ⟨data, walOffset, rfl⟩)
  | writeTempFault entries n =>
    cases hsteps with
    | writeTempFails _ kind data walOffset temp hadmin =>
      exact signals_throw h hadmin (.inr ⟨data, walOffset, rfl⟩)
  | adminFault =>
    cases hsteps with
    | fault call hadmin hpc => exact signals_throw h hadmin (.inl hpc)
    | writeTempFails _ _ _ _ _ _ hl => simp at hl
  | worker => exact signals_worker h hsteps
  | stop =>
    cases hsteps with
    | stop => exact .refl _
    | writeTempFails _ _ _ _ _ _ hl => simp at hl

/-- `LoadSnapshot` at startup has cancelled once. -/
theorem signals_start (hash : Bytes → ℕ) (wal : WriteAheadLog) (m : Store)
    (snapshot temp : Option Bytes) :
    Reaches Signals.step {} (start hash wal m snapshot temp).signals := by
  have hload : ((run Signals.step {} (cancellingCall .loadSnapshot)).any fun t =>
      decide ((∀ i, t.shards i = .free) ∧ t.calling = 0 ∧ t.writesSinceSnapshot = 0 ∧
        t.checkpointRequested = false ∧ t.checkpointActive = false ∧ t.checkpointEpoch = 1 ∧
        t.checkpointError = false) &&
      decide (t.worker = .loop ∧ t.call = none ∧ t.mutex = none ∧ t.waitSet = [] ∧
        t.testing = [])) = true := by decide +kernel
  obtain ⟨t,ht,hend⟩ := (Option.any_eq_true _ _).mp hload
  obtain ⟨hflags,hthreads⟩ := Bool.and_eq_true_iff.mp hend
  obtain ⟨hshards,hcalling,hwrites,hreq,hactive,hepoch,herr⟩ := of_decide_eq_true hflags
  obtain ⟨hworker,hcall,hmutex,hwait,htesting⟩ := of_decide_eq_true hthreads
  refine ⟨_, ht.trans ?_⟩
  obtain ⟨shards,calling,writes,req,active,epoch,err,worker,call,mutex,waitSet,testing⟩ := t
  dsimp only at hshards hcalling hwrites hreq hactive hepoch herr
  dsimp only at hworker hcall hmutex hwait htesting
  obtain rfl : shards = fun _ => .free := funext hshards
  subst hcalling hwrites hreq hactive hepoch herr hworker hcall hmutex hwait htesting
  rfl

end KVStore

/-- Without its data every run of a store is a run of the signals, from the state in which nothing
has happened. -/
theorem store_runs_as_signals {disk : Disk} {policy : DurabilityPolicy} {maxBatch : ℕ}
    (hopen : openStore host hash disk policy maxBatch = .ok s) {ls : List Label}
    (hrun : run (KVStore.step host hash) s ls = some t) :
    Reaches Signals.step {} t.signals := by
  have hstart : WorkerRuns s ∧ Reaches Signals.step {} s.signals := by
    refine ⟨.start hopen, ?_⟩
    obtain ⟨wal,m,-,rfl⟩ := openStore_eq hopen
    exact KVStore.signals_start ..
  refine (run_invariant (A := fun _ => True)
    (P := fun s => WorkerRuns s ∧ Reaches Signals.step {} s.signals) (fun s l t _ hs hstep => ?_)
    (fun _ _ => trivial) hrun hstart).2
  have hsteps := KVStore.steps_of_step hstep
  exact ⟨hs.1.step hsteps, hs.2.trans (KVStore.signals_step hs.1 hsteps)⟩

/-! ### The worker follows its program -/

variable {store : ℕ} {wal : Option ℕ} {cancelled : Bool} {rest handler : List LockInstr}
  {held : List (Lock × Bool)} {lock : Lock} {u v : Thread Lock (Option ℕ)}

/-- The steps of a single thread, the worker of a store. -/
def Alone (store : ℕ) (u v : Thread Lock (Option ℕ)) : Prop :=
  Reaches (lockStep [.worker store]) [u] [v]

namespace Alone

theorem of_advance (h : u.advance [u] = some v) : Alone store u v := by
  refine .of_step (l := .step 0) ?_
  simp [lockStep, LockProgram.step, h]

theorem start (op : LockOp) (hrole : op.role = .worker store) :
    Alone store ⟨[], handler, []⟩ ⟨op.program, op.handler, []⟩ := by
  refine .of_step (l := .start 0 op) ?_
  simp [lockStep, LockProgram.step, hrole]

theorem throw (h : u.throw = some v) : Alone store u v := by
  refine .of_step (l := .throw 0) ?_
  simp [lockStep, LockProgram.step, h]

theorem acquire (hfree : ∀ h ∈ held, h.1 ≠ lock) :
    Alone store ⟨.acquire [(lock,true)] :: rest, handler, held⟩
      ⟨rest, handler, (lock,true) :: held⟩ := by
  refine of_advance (if_pos ?_)
  simp only [List.mem_singleton, Available]
  rintro l rfl u rfl h hh heq
  exact absurd heq (hfree h hh)

theorem wait {event : Option ℕ} : Alone store ⟨.wait event lock :: rest, handler, held⟩
    ⟨rest, handler, held⟩ := of_advance rfl

theorem release : Alone store ⟨.release lock :: rest, handler, held⟩
    ⟨rest, handler, held.filter fun h => h.1 ≠ lock⟩ := of_advance rfl

/-- A lock is given back. -/
theorem release_top {x : Bool} (hfree : ∀ h ∈ held, h.1 ≠ lock) :
    Alone store ⟨.release lock :: rest, handler, (lock,x) :: held⟩ ⟨rest, handler, held⟩ := by
  have hback : ((lock,x) :: held).filter (fun h => h.1 ≠ lock) = held := by
    simpa [List.filter_cons] using hfree
  have hstep := @release store rest handler ((lock,x) :: held) lock
  rwa [hback] at hstep

theorem brief (hfree : ∀ h ∈ held, h.1 ≠ lock) :
    Alone store ⟨ConcurrentKV.brief lock ++ rest, handler, held⟩ ⟨rest, handler, held⟩ :=
  (acquire hfree).trans (release_top hfree)

/-- Everything that is held is given back, the latest lock first. -/
theorem releases (hnodup : (held.map Prod.fst).Nodup) :
    Alone store ⟨held.map (fun h => .release h.1) ++ rest, handler, held⟩ ⟨rest, handler, []⟩ := by
  induction held with
  | nil => exact .refl _
  | cons h held ih =>
    rw [List.map_cons, List.nodup_cons] at hnodup
    refine (release_top fun k hk heq => hnodup.1 ?_).trans (ih hnodup.2)
    rw [← heq]
    exact List.mem_map_of_mem hk

end Alone

/-- The end of a round, with `snapshot_mutex_` held. -/
def leaveSnapshot (store : ℕ) : List LockInstr :=
  .release (.snapshot store) :: brief (.checkpoint store)

def leaveAdmin (store : ℕ) : List LockInstr := .release (.admin store) :: leaveSnapshot store

/-- The locks of some shards, the last one on top, over those of a checkpoint. -/
def captureLocks (store : ℕ) (shards : List Shard) : List (Lock × Bool) :=
  shards.reverse.map (fun i => (.shard store i, true)) ++
    [(.admin store, true), (.snapshot store, true)]

/-- The catch block, with what follows it. -/
def failedRound (store : ℕ) : List LockInstr :=
  brief (.checkpoint store) ++ brief (.checkpoint store)

/-- Where the worker is in its program. The second argument is its hold on `mutex_`. An exception
is unwound at once, since the order in which it gives the shards back is nobody's concern. -/
inductive WorkerAt (store : ℕ) (wal : Option ℕ) (cancelled : Bool) :
    WorkerPc → Option LockStage → Thread Lock (Option ℕ) → Prop where
  | loop (handler : List LockInstr) : WorkerAt store wal cancelled .loop none ⟨[], handler, []⟩
  | taken (epoch : ℕ) : WorkerAt store wal cancelled (.taken epoch) none
      ⟨guarded (.snapshot store) true (brief (.checkpoint store) ++ if cancelled then [] else
          guarded (.admin store) true (allShards store true (ioBrief wal))) ++
        brief (.checkpoint store), failedRound store, []⟩
  | entered (epoch : ℕ) : WorkerAt store wal cancelled (.entered epoch) none
      ⟨brief (.checkpoint store) ++ ((if cancelled then [] else
          guarded (.admin store) true (allShards store true (ioBrief wal))) ++
        leaveSnapshot store), failedRound store, [(.snapshot store, true)]⟩
  | admitted : WorkerAt store wal cancelled .admitted none
      ⟨guarded (.admin store) true (allShards store true (ioBrief wal)) ++ leaveSnapshot store,
        failedRound store, [(.snapshot store, true)]⟩
  | capturing (n : ℕ) : WorkerAt store wal cancelled .capturing (some (.acquiring n))
      ⟨((List.finRange kShardCount).drop n).map (fun i => .acquire [(.shard store i, true)]) ++
        (ioBrief wal ++ ((List.finRange kShardCount).map (fun i => .release (.shard store i)) ++
          leaveAdmin store)),
        failedRound store, captureLocks store ((List.finRange kShardCount).take n)⟩
  | captured (n : ℕ) : WorkerAt store wal cancelled (.captured false) (some (.releasing n))
      ⟨((List.finRange kShardCount).drop n).map (fun i => .release (.shard store i)) ++
          leaveAdmin store,
        failedRound store, captureLocks store ((List.finRange kShardCount).drop n)⟩
  | released : WorkerAt store wal cancelled (.captured false) none
      ⟨leaveSnapshot store, failedRound store, [(.snapshot store, true)]⟩
  | thrown (stage : Option LockStage) : WorkerAt store wal cancelled (.captured true) stage
      ⟨(captureLocks store (List.finRange kShardCount)).map (fun h => .release h.1) ++
        failedRound store, [], captureLocks store (List.finRange kShardCount)⟩
  | saving : WorkerAt store wal cancelled .saving none
      ⟨leaveSnapshot store, failedRound store, [(.snapshot store, true)]⟩
  | failed : WorkerAt store wal cancelled .failed none ⟨failedRound store, [], []⟩
  | finishing (handler : List LockInstr) : WorkerAt store wal cancelled .finishing none
      ⟨brief (.checkpoint store), handler, []⟩
  | notifying (handler : List LockInstr) : WorkerAt store wal cancelled .notifying none
      ⟨[], handler, []⟩

/-- The worker's hold on `mutex_`. -/
def Signals.workerMutex (s : Signals) : Option LockStage :=
  match s.mutex with
  | some (.worker, stage) => some stage
  | _ => none

/-- The worker has come where it is by its program, whether the next check of the epoch will end
the round or not. -/
def OnProgram (store : ℕ) (wal : Option ℕ) (worker : WorkerPc) (stage : Option LockStage) : Prop :=
  ∀ cancelled, ∃ u, WorkerAt store wal cancelled worker stage u ∧ Alone store {} u

theorem guarded_append (l : Lock) (x : Bool) (body rest : List LockInstr) :
    guarded l x body ++ rest = .acquire [(l,x)] :: (body ++ .release l :: rest) := by
  simp [guarded]

theorem captureLocks_concat (store : ℕ) (shards : List Shard) (i : Shard) :
    captureLocks store (shards ++ [i]) = (.shard store i, true) :: captureLocks store shards := by
  simp [captureLocks]

theorem mem_captureLocks {shards : List Shard} {i : Shard}
    (h : ∃ k ∈ captureLocks store shards, k.1 = .shard store i) : i ∈ shards := by
  obtain ⟨k,hk,heq⟩ := h
  simp only [captureLocks, List.mem_append, List.mem_map, List.mem_reverse] at hk
  rcases hk with ⟨j,hj,rfl⟩ | hk
  · obtain ⟨-,rfl⟩ := Lock.shard.inj heq
    exact hj
  · simp only [List.mem_cons, List.not_mem_nil, or_false] at hk
    rcases hk with rfl | rfl <;> cases heq

theorem leaf_of_mem_captureLocks {shards : List Shard} {k : Lock × Bool}
    (hk : k ∈ captureLocks store shards) : k.1.leaf = false := by
  simp only [captureLocks, List.mem_append, List.mem_map, List.mem_cons, List.not_mem_nil,
    or_false] at hk
  rcases hk with ⟨i,-,rfl⟩ | rfl | rfl <;> rfl

theorem captureLocks_release {shards : List Shard} {i : Shard} (hi : i ∉ shards) :
    (captureLocks store (i :: shards)).filter (fun h => h.1 ≠ .shard store i) =
      captureLocks store shards := by
  have hrest : (captureLocks store shards).filter (fun h => h.1 ≠ .shard store i) =
      captureLocks store shards := by
    refine List.filter_eq_self.mpr fun h hh => decide_eq_true fun heq => hi ?_
    exact mem_captureLocks ⟨h, hh, heq⟩
  simp only [captureLocks, List.reverse_cons, List.map_append, List.filter_append] at hrest ⊢
  simpa using hrest

theorem captureLocks_nodup {shards : List Shard} (h : shards.Nodup) :
    ((captureLocks store shards).map Prod.fst).Nodup := by
  have hinj : Function.Injective (Lock.shard store) := fun i j hij => (Lock.shard.inj hij).2
  simp only [captureLocks, List.map_append, List.map_map]
  refine List.Nodup.append ((List.nodup_reverse.mpr h).map hinj) (by simp) ?_
  intro k hk hk'
  obtain ⟨i,-,rfl⟩ := List.mem_map.mp hk
  simp at hk'

theorem drop_finRange {n : ℕ} (hn : n < kShardCount) : (List.finRange kShardCount).drop n =
    ⟨n,hn⟩ :: (List.finRange kShardCount).drop (n+1) := by
  have hlen : n < (List.finRange kShardCount).length := by rwa [List.length_finRange]
  rw [List.drop_eq_getElem_cons hlen, List.getElem_finRange]
  rfl

theorem take_finRange {n : ℕ} (hn : n < kShardCount) : (List.finRange kShardCount).take (n+1) =
    (List.finRange kShardCount).take n ++ [⟨n,hn⟩] := by
  have hlen : n < (List.finRange kShardCount).length := by rwa [List.length_finRange]
  rw [List.take_succ_eq_append_getElem hlen, List.getElem_finRange]
  rfl

theorem drop_finRange_of_le {n : ℕ} (hn : kShardCount ≤ n) :
    (List.finRange kShardCount).drop n = [] :=
  List.drop_eq_nil_of_le (by rwa [List.length_finRange])

/-- A shard is not among those in front of it or behind it. -/
theorem not_mem_around {n : ℕ} (hn : n < kShardCount) :
    (⟨n,hn⟩ : Shard) ∉ (List.finRange kShardCount).take n ∧
      (⟨n,hn⟩ : Shard) ∉ (List.finRange kShardCount).drop (n+1) := by
  have hnodup := List.nodup_finRange kShardCount
  rw [← List.take_append_drop n (List.finRange kShardCount), drop_finRange hn,
    List.nodup_middle, List.nodup_cons, List.mem_append, not_or] at hnodup
  exact hnodup.1

namespace OnProgram

variable {pc pc' : WorkerPc} {stage stage' : Option LockStage}

theorem move (h : OnProgram store wal pc stage)
    (hmove : ∀ cancelled u, WorkerAt store wal cancelled pc stage u →
      ∃ v, WorkerAt store wal cancelled pc' stage' v ∧ Alone store u v) :
    OnProgram store wal pc' stage' := by
  intro cancelled
  obtain ⟨u,hu,hreach⟩ := h cancelled
  obtain ⟨v,hv,hto⟩ := hmove cancelled u hu
  exact ⟨v, hv, hreach.trans hto⟩

/-- The check of the epoch decides which of the two rounds it is. -/
theorem decided (cancelled : Bool) (h : OnProgram store wal pc stage)
    (hmove : ∀ u, WorkerAt store wal cancelled pc stage u →
      ∃ v, (∀ c, WorkerAt store wal c pc' stage' v) ∧ Alone store u v) :
    OnProgram store wal pc' stage' := by
  intro c
  obtain ⟨u,hu,hreach⟩ := h cancelled
  obtain ⟨v,hv,hto⟩ := hmove u hu
  exact ⟨v, hv c, hreach.trans hto⟩

theorem take {epoch : ℕ} (h : OnProgram store wal .loop stage) :
    OnProgram store wal (.taken epoch) stage := by
  refine h.move ?_
  rintro cancelled u ⟨⟩
  refine ⟨_, .taken epoch, (Alone.start (.checkpoint store wal cancelled) rfl).trans ?_⟩
  exact (Alone.acquire (by simp)).trans (Alone.wait.trans (Alone.release_top (by simp)))

theorem enter {epoch : ℕ} (h : OnProgram store wal (.taken epoch) stage) :
    OnProgram store wal (.entered epoch) stage := by
  refine h.move ?_
  rintro cancelled u ⟨⟩
  refine ⟨_, .entered epoch, ?_⟩
  rw [guarded_append, List.append_assoc]
  exact Alone.acquire (by simp)

theorem proceed {epoch : ℕ} (h : OnProgram store wal (.entered epoch) stage) :
    OnProgram store wal .admitted stage := by
  refine h.decided false ?_
  rintro u ⟨⟩
  exact ⟨_, fun _ => .admitted, Alone.brief (by simp)⟩

theorem giveUp {epoch : ℕ} (h : OnProgram store wal (.entered epoch) stage) :
    OnProgram store wal .finishing stage := by
  refine h.decided true ?_
  rintro u ⟨⟩
  exact ⟨_, fun _ => .finishing _, (Alone.brief (by simp)).trans (Alone.release_top (by simp))⟩

theorem lockMutex (h : OnProgram store wal .admitted none) :
    OnProgram store wal .capturing (some (.acquiring 0)) := by
  refine h.move ?_
  rintro cancelled u ⟨⟩
  refine ⟨_, .capturing 0, ?_⟩
  rw [guarded_append, allShards, List.append_assoc, List.append_assoc]
  exact Alone.acquire (by simp)

theorem lockNext {n : ℕ} (hn : n < kShardCount)
    (h : OnProgram store wal pc (some (.acquiring n))) :
    OnProgram store wal pc (some (.acquiring (n+1))) := by
  refine h.move ?_
  intro cancelled u hu
  cases hu with
  | thrown => exact ⟨_, .thrown _, .refl _⟩
  | capturing =>
    refine ⟨_, .capturing (n+1), ?_⟩
    have hi := not_mem_around hn
    rw [drop_finRange hn, take_finRange hn, captureLocks_concat]
    refine Alone.acquire fun k hk heq => hi.1 ?_
    exact mem_captureLocks ⟨k, hk, heq⟩

/-- With all shards locked. -/
theorem capture (h : OnProgram store wal .capturing (some (.acquiring kShardCount))) :
    OnProgram store wal (.captured false) (some (.releasing 0)) := by
  refine h.move ?_
  rintro cancelled u ⟨⟩
  refine ⟨_, .captured 0, ?_⟩
  rw [drop_finRange_of_le le_rfl, List.take_of_length_le (by rw [List.length_finRange])]
  cases wal with
  | none => exact .refl _
  | some wal => exact Alone.brief fun k hk => leaf_ne rfl (leaf_of_mem_captureLocks hk)

theorem captureThrows (h : OnProgram store wal .capturing (some (.acquiring kShardCount))) :
    OnProgram store wal (.captured true) (some (.releasing 0)) := by
  refine h.move ?_
  rintro cancelled u ⟨⟩
  refine ⟨_, .thrown _, Alone.throw ?_⟩
  rw [List.take_of_length_le (by rw [List.length_finRange]), Thread.throw,
    if_neg (by simp [leaveAdmin])]

theorem unlockNext {n : ℕ} (hn : n < kShardCount)
    (h : OnProgram store wal pc (some (.releasing n))) :
    OnProgram store wal pc (some (.releasing (n+1))) := by
  refine h.move ?_
  intro cancelled u hu
  cases hu with
  | thrown => exact ⟨_, .thrown _, .refl _⟩
  | captured =>
    refine ⟨_, .captured (n+1), ?_⟩
    rw [drop_finRange hn, ← captureLocks_release (not_mem_around hn).2]
    exact Alone.release

theorem unlocked {n : ℕ} (hn : kShardCount ≤ n)
    (h : OnProgram store wal pc (some (.releasing n))) : OnProgram store wal pc none := by
  refine h.move ?_
  intro cancelled u hu
  cases hu with
  | thrown => exact ⟨_, .thrown _, .refl _⟩
  | captured =>
    refine ⟨_, .released, ?_⟩
    rw [drop_finRange_of_le hn]
    exact Alone.release_top (by simp)

theorem captured {failed : Bool} (h : OnProgram store wal (.captured failed) none) :
    OnProgram store wal (if failed then .failed else .saving) none := by
  refine h.move ?_
  intro cancelled u hu
  cases hu with
  | released => exact ⟨_, .saving, .refl _⟩
  | thrown => exact ⟨_, .failed, Alone.releases (captureLocks_nodup (List.nodup_finRange _))⟩

theorem saved (h : OnProgram store wal .saving stage) : OnProgram store wal .finishing stage := by
  refine h.move ?_
  rintro cancelled u ⟨⟩
  exact ⟨_, .finishing _, Alone.release_top (by simp)⟩

theorem saveThrows (h : OnProgram store wal .saving stage) : OnProgram store wal .failed stage := by
  refine h.move ?_
  rintro cancelled u ⟨⟩
  exact ⟨_, .failed, (Alone.throw rfl).trans (Alone.release_top (by simp))⟩

theorem recordError (h : OnProgram store wal .failed stage) :
    OnProgram store wal .finishing stage := by
  refine h.move ?_
  rintro cancelled u ⟨⟩
  exact ⟨_, .finishing _, Alone.brief (by simp)⟩

theorem finish (h : OnProgram store wal .finishing stage) :
    OnProgram store wal .notifying stage := by
  refine h.move ?_
  rintro cancelled u ⟨⟩
  exact ⟨_, .notifying _, Alone.brief (by simp)⟩

theorem notifyAll (h : OnProgram store wal .notifying stage) : OnProgram store wal .loop stage := by
  refine h.move ?_
  rintro cancelled u ⟨⟩
  exact ⟨_, .loop _, .refl _⟩

end OnProgram

namespace Signals

variable {s t : Signals} {l : SignalLabel}

theorem workerMutex_of_ne (h : ∀ stage, s.mutex ≠ some (.worker, stage)) :
    s.workerMutex = none := by
  unfold workerMutex
  split
  · rename_i stage hmutex
    exact absurd hmutex (h stage)
  · rfl

theorem workerMutex_of_hasAll {holder : MutexHolder} (h : s.hasAll holder = true)
    (hne : holder ≠ .worker) : s.workerMutex = none := by
  refine workerMutex_of_ne fun stage hmutex => hne ?_
  rw [hasAll, hmutex, beq_iff_eq, Option.some.injEq, Prod.mk.injEq] at h
  exact h.1.symm

/-- One case for each step of the signals; those of the worker are the moves of `OnProgram`. -/
theorem onProgram_step (h : OnProgram store wal s.worker s.workerMutex) (hsteps : s.Steps l t) :
    OnProgram store wal t.worker t.workerMutex := by
  have hstage {m : Option (MutexHolder × LockStage)} (hmutex : s.mutex = m) :
      s.workerMutex = { s with mutex := m }.workerMutex := by rw [workerMutex, hmutex]; rfl
  have hall (h : s.hasAll .worker = true) : s.workerMutex = some (.acquiring kShardCount) :=
    hstage (beq_iff_eq.mp h)
  cases hsteps with
  -- the worker does not move, and `mutex_` stays with whoever has it
  | enterCallThrows | enterCall | lockShard | appendThrows | count | scheduleAlone | unlockShard
  | enter | cancel | callLeave | sleep | waitForCheckpoints | wait | waited => exact h
  | schedule i woken =>
    obtain ⟨waitSet,testing,-,heq⟩ := wake_eq
      { s.setShard i (.writer .scheduled) with checkpointRequested := true } woken
    rw [heq]
    exact h
  | wakeUp sleeper =>
    obtain ⟨waitSet,testing,-,heq⟩ := s.wake_eq sleeper
    rw [heq]
    exact h
  -- others get `mutex_`, or have it
  | callLock op hcall hmutex | enterClear hmutex =>
    rw [hstage hmutex] at h
    exact h
  | callDone op hcall hcallAll | callThrows op hcall hcallAll | clear hcallAll =>
    rw [workerMutex_of_hasAll hcallAll (by simp)] at h
    exact h
  -- the shards, of the worker or of somebody else
  | lockNext holder n hn hmutex =>
    rw [hstage hmutex] at h
    cases holder with
    | worker => exact h.lockNext hn
    | _ => exact h
  | unlockNext holder n hn hmutex =>
    rw [hstage hmutex] at h
    cases holder with
    | worker => exact h.unlockNext hn
    | _ => exact h
  | unlocked holder n hn hmutex =>
    rw [hstage hmutex] at h
    cases holder with
    | worker => exact h.unlocked hn
    | _ => exact h
  -- the worker
  | take hworker =>
    rw [hworker] at h
    exact h.take
  | workerEnter epoch hworker =>
    rw [hworker] at h
    exact h.enter
  | proceed epoch hworker =>
    rw [hworker] at h
    exact h.proceed
  | giveUp epoch hworker =>
    rw [hworker] at h
    exact h.giveUp
  | workerLock hworker hmutex =>
    rw [hworker, hstage hmutex] at h
    exact h.lockMutex
  | capture hworker hworkerAll =>
    rw [hworker, hall hworkerAll] at h
    exact h.capture
  | captureThrows hworker hworkerAll =>
    rw [hworker, hall hworkerAll] at h
    exact h.captureThrows
  | captured failed hworker hfree =>
    have hnone : s.workerMutex = none := workerMutex_of_ne fun stage hmutex => by
      simp [hmutex] at hfree
    rw [hworker, hnone] at h
    have hnext := h.captured
    rw [← hnone] at hnext
    exact hnext
  | saved hworker =>
    rw [hworker] at h
    exact h.saved
  | saveThrows hworker =>
    rw [hworker] at h
    exact h.saveThrows
  | recordError hworker =>
    rw [hworker] at h
    exact h.recordError
  | finish hworker =>
    rw [hworker] at h
    exact h.finish
  | notifyAll hworker =>
    rw [hworker] at h
    exact h.notifyAll

end Signals

/-- In every run of the signals the worker has come where it is by rounds of its program of lock
operations, and holds there what the signals say. -/
theorem worker_follows_program {t : Signals} (hrun : Reaches Signals.step {} t) (store : ℕ)
    (wal : Option ℕ) : OnProgram store wal t.worker t.workerMutex := by
  obtain ⟨ls,hls⟩ := hrun
  refine run_invariant (A := fun _ => True)
    (P := fun s => OnProgram store wal s.worker s.workerMutex)
    (fun s l t _ hs hstep => Signals.onProgram_step hs (Signals.steps_of_step hstep))
    (fun _ _ => trivial) hls ?_
  exact fun cancelled => ⟨_, .loop [], .refl _⟩

/-- The same for a store: its worker is in the middle of `LockOp.checkpoint` where the flags of its
signals and its own steps put it. -/
theorem store_worker_follows_program {disk : Disk} {policy : DurabilityPolicy} {maxBatch : ℕ}
    (hopen : openStore host hash disk policy maxBatch = .ok s) {ls : List Label}
    (hrun : run (KVStore.step host hash) s ls = some t) (store : ℕ) (wal : Option ℕ) :
    OnProgram store wal t.workerPc t.signals.workerMutex :=
  worker_follows_program (store_runs_as_signals hopen hrun) store wal

end ConcurrentKV

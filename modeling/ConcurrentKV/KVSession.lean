import ConcurrentKV.KVMemory
import ConcurrentKV.WalCrash

/-! One session of the store without failed appends: the settled log, the locks and the
shards together, step by step, and what readers see. -/
namespace ConcurrentKV
open ByteCodec OpLog Sharding Transition

/-- A session that began with the map `m`. Its log stands on `base`, with the operations
`before` in the file; `settled` are the requests of this session that are settled. -/
structure Session (host : ByteOrder) (hash : Bytes → ℕ) (m : Store) (s : KVStore)
    (base : WriteAheadLog) (before : List WalRecord) (settled : List Request) : Prop where
  ground : Ground host s.wal base before settled
  mem : MemInv hash m s.wal s.slots s.shards s.returned
  lock : LockInv s.slots s.admin
  path : PathInv s.admin

/-- No append fails and nobody truncates the log behind the store's back. -/
def Label.appendsOk : Label → Bool
  | .wal l => l.isAppend
  | _ => true

namespace Session

variable {host : ByteOrder} {hash : Bytes → ℕ} {m : Store} {s t : KVStore} {base : WriteAheadLog}
  {before : List WalRecord} {settled : List Request}

theorem start {wal : WriteAheadLog} {ops : List WalRecord} (h : WalInv host wal ops)
    (hmax : 1 ≤ wal.maxBatch ∧ wal.maxBatch ≤ 4096) (hroom : wal.file.length ≤ kMaxStreamoff)
    (m : Store) (snapshot temp : Option Bytes) :
    Session host hash m (KVStore.start hash wal m snapshot temp) wal ops [] :=
  ⟨ground_start h hmax hroom, MemInv.start wal m, lockInv_start, pathInv_start⟩

/-- A thread that has locked all shards sees no append in progress, and the map that the
whole log gives. -/
theorem quiet (h : Session host hash m s base before settled) (hall : ∀ i, s.slots i = .admin) :
    s.wal.outstanding = [] ∧ base = s.wal.wal ∧ s.wal.history = settled ∧
      s.collectData = applyOps (settled.map Request.op) m := by
  have hidle := h.mem.own.outstanding_eq_nil hall
  obtain ⟨-,hbase,hhist⟩ := h.ground.rest_of_idle hidle
  refine ⟨hidle, hbase, hhist, ?_⟩
  rw [← hhist]
  refine h.mem.collect_eq fun i => ?_
  rw [hall i]
  rfl

theorem all_locked (h : Session host hash m s base before settled) {call : AdminCall}
    (hadmin : s.admin = some call) (hholds : ∀ i, call.holds i) (i : Shard) :
    s.slots i = .admin := (h.lock i).mpr ⟨call, hadmin, hholds i⟩

/-- One step: nothing settles, or a batch does, or the log is truncated. -/
theorem step {l : Label} (h : Session host hash m s base before settled)
    (hl : l.appendsOk = true) (hstep : KVStore.Steps host hash s l t) :
    (¬s.Rotates t ∧ Session host hash m t base before settled) ∨
    (∃ batch n, DuringWrite host base n before batch ∧ (∀ r ∈ batch, r ∈ s.wal.outstanding) ∧
      t.admin = s.admin ∧ t.snapshot = s.snapshot ∧ t.temp = s.temp ∧ t.unsynced = s.unsynced ∧
      t.wal.truncating = s.wal.truncating ∧
      Session host hash m t (base.appended host (batch.map Request.op))
        (before ++ batch.map Request.op) (settled ++ batch)) ∨
    (∃ kind wal, s.admin = some ⟨kind, .rotating⟩ ∧ s.wal.step host .clear = some wal ∧
      t = { s with wal := wal, admin := some ⟨kind, .truncated⟩ } ∧
      Session host hash m t s.wal.wal.cleared [] settled) := by
  have hmem :=
    h.mem.step h.ground.log (fun w hw => by rw [hw] at hl; exact hl) (hstep.effect h.lock)
  have hlock := h.lock.step h.path hstep
  have hpath := h.path.step hstep
  by_cases hrot : s.Rotates t
  · obtain ⟨kind,wal,hadmin,hwal,rfl⟩ := hstep.of_rotates hrot
    obtain ⟨hidle,-,-,-⟩ := h.quiet (h.all_locked hadmin fun i => trivial)
    exact .inr (.inr ⟨kind, wal, hadmin, hwal, rfl, h.ground.clear hidle hwal, hmem, hlock, hpath⟩)
  have hsame (hwal : t.wal = s.wal) : Session host hash m t base before settled :=
    ⟨hwal ▸ h.ground, hmem, hlock, hpath⟩
  have hout {batch : List Request} {phase : Phase} (hjob : s.wal.job = some ⟨batch, phase⟩) :
      ∀ r ∈ batch, r ∈ s.wal.outstanding := by
    intro r hr
    simp [WalThreads.outstanding, hjob, hr]
  cases hstep with
  | prepare i op wal hslot hwal =>
    rcases h.ground.step rfl hwal with hg | ⟨batch,n,hd,hjob,-,hg⟩
    · exact .inl ⟨hrot, hg, hmem, hlock, hpath⟩
    · exact .inr (.inl ⟨batch, n, hd, hout hjob, rfl, rfl, rfl, rfl,
        WalThreads.append_truncating rfl hwal, hg, hmem, hlock, hpath⟩)
  | wal w wal hprep hwal =>
    rcases h.ground.step hl hwal with hg | ⟨batch,n,hd,hjob,-,hg⟩
    · exact .inl ⟨hrot, hg, hmem, hlock, hpath⟩
    · exact .inr (.inl ⟨batch, n, hd, hout hjob, rfl, rfl, rfl, rfl,
        WalThreads.append_truncating hl hwal, hg, hmem, hlock, hpath⟩)
  | rotate kind wal hadmin hwal => exact absurd ⟨kind, hadmin, rfl⟩ hrot
  | syncTruncation kind wal hadmin hwal =>
    rcases hwal with hwal | ⟨rfl,-⟩
    · exact .inl ⟨hrot, h.ground.clearSync hwal, hmem, hlock, hpath⟩
    · exact .inl ⟨hrot, hsame rfl⟩
  | _ => exact .inl ⟨hrot, hsame rfl⟩

end Session

/-! ### Readers -/

/-- The labels of a run that leaves all records in the file. -/
def Label.keepsLog : Label → Bool
  | .wal l => l.isAppend
  | .enter .compactPersistence | .enter .clearPersistence => false
  | _ => true

/-- The record is in the synced part of the file, if the policy promises that. -/
def KVStore.Durable (host : ByteOrder) (s : KVStore) (initial : List WalRecord) (r : Request) :
    Prop :=
  s.wal.wal.policy ≠ .buffered → ∃ synced, synced <+: s.wal.history ∧ r ∈ synced ∧
    FileShape host (s.wal.wal.file.take s.wal.syncedLength) (initial ++ synced.map Request.op)

variable {host : ByteOrder} {hash : Bytes → ℕ} {m : Store} {s t : KVStore} {base : WriteAheadLog}
  {initial before : List WalRecord} {settled : List Request}

/-- Where the holder of `snapshot_mutex_` comes from. -/
theorem KVStore.Steps.admin_kind {l : Label} (h : KVStore.Steps host hash s l t) {call : AdminCall}
    (ht : t.admin = some call) : (∃ pc, s.admin = some ⟨call.kind,pc⟩) ∨ l = .enter call.kind ∨
      ∃ epoch, call.kind = .checkpoint epoch := by
  cases h with
  | enter kind =>
    cases ht
    exact .inr (.inl rfl)
  | enterCheckpoint epoch =>
    cases ht
    exact .inr (.inr ⟨epoch, rfl⟩)
  | cancelled | leave => cases ht
  | fault call hadmin =>
    cases ht
    exact .inl ⟨_, hadmin⟩
  | checked _ hadmin | cancel _ _ hadmin | lock _ _ _ hadmin | captureFails _ _ _ hadmin
  | captureCheckpoint _ _ _ _ hadmin | captureSave _ _ _ hadmin | captureCompact _ _ hadmin
  | captureClear _ _ hadmin | release _ _ _ _ _ hadmin | released _ _ _ _ _ hadmin
  | writeTemp _ _ _ _ _ hadmin | writeTempFails _ _ _ _ _ hadmin | syncTemp _ _ _ hadmin
  | rename _ _ _ hadmin | syncDirectory _ _ _ hadmin | verified _ _ _ hadmin
  | verifyFails _ _ _ hadmin | rotate _ _ hadmin | rotateFails _ hadmin
  | syncTruncation _ _ hadmin | removeSnapshot _ hadmin | removeTemp _ hadmin
  | syncRemoval _ hadmin | reset _ hadmin | unlock _ _ _ _ hadmin =>
    cases ht
    exact .inl ⟨_, hadmin⟩
  | _ => exact .inl ⟨_, ht⟩

namespace Session

/-- A record in the file whose shard no call has locked is acknowledged and durable. -/
theorem acked_of_free (h : Session host hash m s base (initial ++ settled.map Request.op) settled)
    {r : Request} (hr : r ∈ s.wal.history)
    (hfree : (s.slots (shardIndex hash r.op.key)).isWriter = false) :
    (r.id, none) ∈ s.wal.results ∧ s.Durable host initial r := by
  -- its call would still have the lock if the request were outstanding
  have hout : r ∉ s.wal.outstanding := by
    intro hr
    rw [h.mem.own.owner r hr] at hfree
    cases hfree
  constructor
  · rw [h.mem.order.history_eq h.mem.own.ids] at hr
    rcases List.mem_append.mp hr with hr | hr
    · exact of_decide_eq_true (List.mem_filter.mp hr).2
    · exact absurd (WalThreads.uncompleted_subset r hr) hout
  · intro hpol
    refine ⟨settled, ?_, ?_, ?_⟩
    · rw [h.ground.history_eq]
      exact List.prefix_append _ _
    · rw [h.ground.history_eq] at hr
      rcases List.mem_append.mp hr with hr | hr
      · exact hr
      · exact absurd (Ground.unsettled_subset s.wal r hr) hout
    · rw [h.ground.synced hpol, ← List.prefix_iff_eq_take.mp h.ground.span.1]
      exact h.ground.inv.agree.fileShape

end Session

/-- The session of a run that leaves all records in the file. -/
def KeepsLog (host : ByteOrder) (hash : Bytes → ℕ) (initial : List WalRecord) (m : Store)
    (s : KVStore) : Prop :=
  (∃ base settled, Session host hash m s base (initial ++ settled.map Request.op) settled) ∧
    ∀ call, s.admin = some call → call.kind ≠ .compactPersistence ∧ call.kind ≠ .clearPersistence

theorem KeepsLog.step {l : Label} (h : KeepsLog host hash initial m s) (hl : l.keepsLog = true)
    (hstep : s.step host hash l = some t) : KeepsLog host hash initial m t := by
  obtain ⟨⟨base,settled,hs⟩,hkind⟩ := h
  have hsteps := KVStore.steps_of_step hstep
  have hok : l.appendsOk = true := by
    cases l with
    | wal w => exact hl
    | _ => rfl
  refine ⟨?_, ?_⟩
  · rcases hs.step hok hsteps with ⟨-,ht⟩ | ⟨batch,n,-,-,-,-,-,-,-,ht⟩ | ⟨kind,wal,hadmin,-⟩
    · exact ⟨base, settled, ht⟩
    · rw [List.append_assoc, ← List.map_append] at ht
      exact ⟨_, settled ++ batch, ht⟩
    · -- only the two excluded calls come to a truncation
      have hpath := hs.path _ hadmin
      have := hkind _ hadmin
      cases kind <;> simp_all [AdminKind.passes]
  · intro call hcall
    rcases hsteps.admin_kind hcall with ⟨pc,hs⟩ | rfl | ⟨epoch,he⟩
    · exact hkind ⟨call.kind,pc⟩ hs
    · constructor <;> intro he <;> simp [he, Label.keepsLog] at hl
    · simp [he]

/-- Memory follows the log. The store starts on any file, with the file's operations applied
to any map; threads call `Set`, `Delete` and `Get`, checkpoints may run, and no append fails. -/
theorem memory_follows_the_log {b : Bytes} (hshape : FileShape host b initial)
    (hroom : b.length ≤ kMaxStreamoff) {policy : DurabilityPolicy} {maxBatch : ℕ}
    {wal : WriteAheadLog} (hopen : openWal host b policy maxBatch = .ok wal) (init : Store)
    (snapshot temp : Option Bytes) {labels : List Label} (hlabels : ∀ l ∈ labels, l.keepsLog = true)
    (hrun : run (KVStore.step host hash)
      (KVStore.start hash wal (applyOps initial init) snapshot temp) labels = some s) :
    FileShape host s.wal.wal.file (initial ++ s.wal.history.map Request.op) ∧
    (∀ k, (s.slots (shardIndex hash k)).isWriter = false →
      (s.shards (shardIndex hash k)).lookup k =
        (applyOps (initial ++ s.wal.history.map Request.op) init).lookup k ∧
      ∀ r ∈ s.wal.history, r.op.key = k →
        (r.id, none) ∈ s.wal.results ∧ s.Durable host initial r) ∧
    (∀ k value t, s.step host hash (.get k value) = some t →
      value = (applyOps (initial ++ s.wal.acked.map Request.op) init).lookup k) ∧
    ((∀ i, (s.slots i).isWriter = false) →
      ∃ result, replayFromDetailed host s.wal.wal.file 0 init = .ok (result, s.collectData)) := by
  have hn : initial.length < kMaxUint64 := by
    have := hshape.length_le
    simp only [kMaxStreamoff, kMaxUint64] at hroom ⊢
    omega
  have hbatch := openWal_maxBatch hopen
  obtain ⟨wal',hopen',hfile,-,hmax,hinv⟩ := openWal_inv hshape policy hbatch (fun _ => hn)
  rw [hopen] at hopen'
  obtain rfl := Except.ok.inj hopen'
  have hstart : KeepsLog host hash initial (applyOps initial init)
      (KVStore.start hash wal (applyOps initial init) snapshot temp) := by
    refine ⟨⟨wal, [], ?_⟩, fun call hc => by cases hc⟩
    rw [List.map_nil, List.append_nil]
    exact Session.start hinv (hmax ▸ hbatch) (hfile ▸ hroom) _ _ _
  obtain ⟨⟨base,settled,h⟩,-⟩ := run_invariant
    (fun s l t hl h hstep => KeepsLog.step h hl hstep) hlabels hrun hstart
  have hlog : FileShape host s.wal.wal.file (initial ++ s.wal.history.map Request.op) := by
    rw [h.ground.history_eq, List.map_append, ← List.append_assoc]
    exact h.ground.log.fileShape
  have hlookup (k : Bytes) (hfree : (s.slots (shardIndex hash k)).isWriter = false) :
      (s.shards (shardIndex hash k)).lookup k =
        (applyOps (initial ++ s.wal.history.map Request.op) init).lookup k := by
    rw [applyOps_append]
    exact h.mem.lookup hfree
  refine ⟨hlog, ?_, ?_, ?_⟩
  · intro k hfree
    refine ⟨hlookup k hfree, ?_⟩
    rintro r hr rfl
    exact h.acked_of_free hr hfree
  · intro k value t hget
    cases KVStore.steps_of_step hget with
    | writeTempFails _ _ _ _ _ _ hl => rcases hl with ⟨entries,hl⟩ | ⟨entries,n,hl⟩ <;> cases hl
    | get _ _ keys hslot hvalue =>
      have hfree : (s.slots (shardIndex hash k)).isWriter = false := by
        rw [hslot]
        rfl
      rw [hvalue, hlookup k hfree, lookup_applyOps, lookup_applyOps, lastEffect_append,
        lastEffect_append, h.mem.order.history_eq h.mem.own.ids, List.map_append, lastEffect_append]
      -- no record on `k` is still to be completed
      have hnone : lastEffect k (s.wal.uncompleted.map Request.op) = none := by
        rw [lastEffect_eq_none_iff]
        rintro op hop rfl
        obtain ⟨r,hr,rfl⟩ := List.mem_map.mp hop
        rw [h.mem.own.owner r (WalThreads.uncompleted_subset r hr)] at hfree
        cases hfree
      rw [hnone, Option.none_or]
  · intro hfree
    obtain ⟨result,hreplay⟩ := hlog.replayFrom .start h.ground.log.room init
    refine ⟨result, ?_⟩
    rw [hreplay, List.drop_zero, KVStore.collectData, h.mem.collect_eq hfree, applyOps_append]

/-- One `Set` and a `Get` that waits for its lock: it reads the acknowledged value. -/
theorem memory_follows_one_set :
    ∃ s, run (KVStore.step .little (fun _ => 0)) (KVStore.start (fun _ => 0)
        { file := [], policy := .sync, maxBatch := 1, headerPending := true }
        (applyOps [] ∅) none none)
        [.call (.set [1] [2]), .lockShard (.set [1] [2]), .caller 0, .wal (.submit 0),
          .wal .writeHeader, .wal .writeFrames, .wal .sync, .wal .finish, .caller 0, .caller 0,
          .caller 0, .caller 0, .lockShared [1]] = some s ∧
      (∃ t, s.step .little (fun _ => 0) (.get [1] (some [2])) = some t) ∧
      some [2] = (applyOps ([] ++ s.wal.acked.map Request.op) ∅).lookup [1] := by
  have hrun : ((run (KVStore.step .little (fun _ => 0)) (KVStore.start (fun _ => 0)
      { file := [], policy := .sync, maxBatch := 1, headerPending := true }
      (applyOps [] ∅) none none)
      [.call (.set [1] [2]), .lockShard (.set [1] [2]), .caller 0, .wal (.submit 0),
        .wal .writeHeader, .wal .writeFrames, .wal .sync, .wal .finish, .caller 0, .caller 0,
        .caller 0, .caller 0, .lockShared [1]]).bind fun s =>
      s.step .little (fun _ => 0) (.get [1] (some [2]))).isSome = true := by decide +kernel
  obtain ⟨t,ht⟩ := Option.isSome_iff_exists.mp hrun
  obtain ⟨s,hs,hget⟩ := Option.bind_eq_some_iff.mp ht
  have hopen : openWal .little [] .sync 1 =
      .ok { file := [], policy := .sync, maxBatch := 1, headerPending := true } := rfl
  obtain ⟨-,-,hread,-⟩ := memory_follows_the_log .empty (Nat.zero_le _) hopen ∅ none none
    (by decide) hs
  exact ⟨s, hs, ⟨t, hget⟩, hread [1] (some [2]) t hget⟩

end ConcurrentKV

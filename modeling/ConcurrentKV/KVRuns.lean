import ConcurrentKV.KVSteps

/-! Long runs of the store, put together from a write and from the passes over the locks. -/
namespace ConcurrentKV
open ByteCodec OpLog Sharding Transition

/-- One hash value for all keys. -/
def oneShard : Bytes → ℕ := fun _ => 0

/-- The shortest `Set`. -/
def blankSet : WalRecord := .set [] []

/-- The shards with that entry alone. -/
def blankShards : Shard → Store := Function.update (fun _ => ∅) 0 (applyOp blankSet ∅)

/-- An empty log as the constructor makes it. -/
def blankWal : WriteAheadLog :=
  { file := [], policy := .buffered, maxBatch := 1, headerPending := true }

/-- A buffered log between two writes, after `n` of them. -/
structure WalIdle (n : ℕ) (w : WalThreads) : Prop where
  policy : w.wal.policy = .buffered
  admitted : w.wal.appendCheck = .ok ()
  outputOpen : w.wal.outputOpen = true
  portable : w.wal.portable = true
  generation : w.wal.generation ≠ kMaxUint64
  sequence : w.wal.nextSequence ≤ n+1
  file : w.wal.file.length+w.wal.headerBytes.length ≤ 24+25*n
  written : 0 < n → w.wal.file ≠ []
  truncating : w.truncating = none
  prepared : w.prepared = []
  queue : w.queue = []
  job : w.job = none
  exited : w.exited = false
  results : ∀ r ∈ w.results, r.1 < w.nextId

/-- The object's part of that write. -/
theorem WalIdle.finalize {n : ℕ} {w : WalThreads} (h : WalIdle n w) (hn : n < 2^30) :
    w.wal.prepare .little blankSet = .ok (WriteAheadLog.preparedFrame .little true blankSet) ∧
    w.wal.ensureHeaderLocked.finalizeFrames [WriteAheadLog.preparedFrame .little true blankSet] =
      .ok (framesFrom .little true w.wal.nextSequence [blankSet], { w.wal.ensureHeaderLocked with
        nextSequence := w.wal.nextSequence+1 }) := by
  have hp := h.portable
  have hseq : w.wal.ensureHeaderLocked.nextSequence = w.wal.nextSequence := by
    rw [WriteAheadLog.ensureHeaderLocked_eq]
  have hport : w.wal.ensureHeaderLocked.portable = true := by
    rw [WriteAheadLog.ensureHeaderLocked_eq]
    exact hp
  refine ⟨?_, ?_⟩
  · have hok : RecordOk w.wal.portable blankSet := by
      rw [hp]
      decide
    rw [WriteAheadLog.prepare_of_ok .little w.wal hok, hp]
  · have hfin := WriteAheadLog.finalizeFrames_preparedFrames .little w.wal.ensureHeaderLocked
      [blankSet] (fun _ => by
        have := h.sequence
        rw [hseq, List.length_singleton]
        simp only [kMaxUint64]
        omega)
    rw [hport, hseq] at hfin
    simpa using hfin

/-- The steps of the log in a buffered write. -/
theorem WalIdle.write {n : ℕ} {w : WalThreads} (h : WalIdle n w) (hn : n < 2^30) :
    ∃ w₁ w₂, w.step .little (.prepare blankSet) = some w₁ ∧
      run (WalThreads.step .little) w₁ [.submit w.nextId, .writeHeader, .writeFrames, .finish] =
        some w₂ ∧
      w₂.results.find? (fun r => r.1 == w.nextId) = some (w.nextId, none) ∧ WalIdle (n+1) w₂ := by
  obtain ⟨hprep,hfin⟩ := h.finalize hn
  have hfile := h.file
  have hgroup : w.wal.policy ≠ .groupCommit := by simp [h.policy]
  let r : Request := ⟨w.nextId, blankSet, WriteAheadLog.preparedFrame .little true blankSet⟩
  let w₁ : WalThreads := { w with nextId := w.nextId+1, prepared := [r] }
  let w₂ : WalThreads := { w with
    nextId := w.nextId+1
    job := some ⟨[r], .header⟩
    enqueued := w.enqueued ++ [r] }
  let bytes := framesFrom .little true w.wal.nextSequence [blankSet]
  let w₃ : WalThreads := { w₂ with
    wal := { w.wal.ensureHeaderLocked with nextSequence := w.wal.nextSequence+1 }
    job := some ⟨[r], .frames bytes⟩ }
  let w₄ : WalThreads := { w₃ with
    wal := { w₃.wal with file := w₃.wal.file ++ bytes }
    job := some ⟨[r], .flushed⟩
    history := w.history ++ [r] }
  have h₁ : w.step .little (.prepare blankSet) = some w₁ := by
    simp only [WalThreads.step, hprep, h.prepared, List.nil_append]
    rfl
  have h₂ : w₁.step .little (.submit w.nextId) = some w₂ := by
    simp [WalThreads.step, w₁, r, WalThreads.accept, hgroup, h.job, h.admitted,
      h.exited, h.prepared, WalThreads.ioFree, h.truncating, w₂]
  have h₃ : w₂.step .little .writeHeader = some w₃ := by
    have hroom : w₂.fits w₂.wal.headerBytes := by
      change w.wal.file.length+w.wal.headerBytes.length ≤ kMaxStreamoff
      simp only [kMaxStreamoff]
      omega
    simp only [WalThreads.step, w₂, h.outputOpen, or_true, true_and]
    rw [if_pos hroom]
    simp only [r, List.map_cons, List.map_nil, hfin]
    rfl
  have hlen : bytes.length = 25 := by
    simp [bytes, framesFrom, recordLength, payloadLength, blankSet]
  have hthree : w₃.wal.file.length ≤ 24+25*n := by
    simpa [w₃, WriteAheadLog.ensureHeaderLocked_eq] using hfile
  have h₄ : w₃.step .little .writeFrames = some w₄ := by
    have hopen : w₃.wal.outputOpen = true := by
      simp [w₃, WriteAheadLog.ensureHeaderLocked_eq, h.outputOpen]
    have hroom : w₃.fits bytes := by
      change w₃.wal.file.length+bytes.length ≤ kMaxStreamoff
      simp only [kMaxStreamoff]
      omega
    change (if w₃.wal.outputOpen = true ∧ w₃.fits bytes then some w₄ else none) = some w₄
    rw [if_pos ⟨hopen,hroom⟩]
  have hpol : w₄.wal.policy = .buffered := by
    simp [w₄, w₃, WriteAheadLog.ensureHeaderLocked_eq, h.policy]
  let w₅ : WalThreads := { w₄ with job := none, results := w.results ++ [(w.nextId, none)] }
  have h₅ : w₄.step .little .finish = some w₅ := by
    change (if w₄.wal.policy = .buffered then some (w₄.finishJob [r]) else none) = some w₅
    rw [if_pos hpol, WalThreads.finishJob, if_neg (by simp [hpol])]
    rfl
  refine ⟨w₁, w₅, h₁, ?_, ?_, ?_⟩
  · rw [run_cons, h₂, Option.bind_some, run_cons, h₃, Option.bind_some, run_cons, h₄,
      Option.bind_some, run_cons, h₅, Option.bind_some, run_nil]
  · have hnone : w.results.find? (fun r => r.1 == w.nextId) = none := by
      rw [List.find?_eq_none]
      intro x hx
      have := h.results x hx
      simp
      omega
    simp [w₅, hnone]
  · refine ⟨hpol, ?_, ?_, ?_, ?_, ?_, ?_, ?_, h.truncating, h.prepared, h.queue, rfl, h.exited, ?_⟩
    · simp only [w₅, w₄, w₃, WriteAheadLog.ensureHeaderLocked_eq]
      exact h.admitted
    · simp [w₅, w₄, w₃, WriteAheadLog.ensureHeaderLocked_eq, h.outputOpen]
    · simp only [w₅, w₄, w₃, WriteAheadLog.ensureHeaderLocked_eq]
      exact h.portable
    · simpa [w₅, w₄, w₃, WriteAheadLog.ensureHeaderLocked_eq] using h.generation
    · have := h.sequence
      change w.wal.nextSequence+1 ≤ n+1+1
      omega
    · have hleg : w.wal.legacyV2 = false := by simpa [WriteAheadLog.portable] using h.portable
      have hhead : w₅.wal.headerBytes = [] := by
        simp [w₅, w₄, w₃, WriteAheadLog.headerBytes, WriteAheadLog.ensureHeaderLocked_eq, hleg]
      have hfile : w₅.wal.file.length = w₃.wal.file.length+bytes.length := List.length_append
      rw [hhead, hfile, List.length_nil]
      omega
    · intro _ hnil
      have hbytes : bytes = [] := (List.append_eq_nil_iff.mp hnil).2
      rw [hbytes] at hlen
      cases hlen
    · intro x hx
      rcases List.mem_append.mp hx with hx | hx
      · exact Nat.lt_succ_of_lt (h.results x hx)
      · obtain rfl := List.mem_singleton.mp hx
        exact Nat.lt_succ_self _

/-! ### A store that one thread writes to -/

/-- A store between two writes, after `n` of them in which the counter was not reset. -/
structure Idle (n : ℕ) (s : KVStore) : Prop where
  wal : WalIdle n s.wal
  slots : s.slots = fun _ => .readers []
  shards : s.shards = if n = 0 then fun _ => ∅ else blankShards
  calling : s.calling = []
  writes : s.writesSinceSnapshot = n
  requested : s.checkpointRequested = false
  error : s.checkpointError = false
  worker : s.worker = .idle
  admin : s.admin = none

theorem openStore_blank : openStore .little oneShard ⟨[], none, none⟩ .buffered 1 =
    .ok (KVStore.start oneShard blankWal ∅ none none) := rfl

theorem idle_start : Idle 0 (KVStore.start oneShard blankWal ∅ none none) where
  wal := ⟨rfl, rfl, rfl, rfl, by decide, by decide, by decide, by decide, rfl, rfl, rfl, rfl, rfl,
    nofun⟩
  slots := rfl
  shards := rfl
  calling := rfl
  writes := rfl
  requested := rfl
  error := rfl
  worker := rfl
  admin := rfl

/-- A write up to the counter, as request `id` of a buffered log. -/
def writeCall (op : WalRecord) (id : ℕ) : List Label :=
  [.call op, .lockShard op, .caller 0] ++
    [WalLabel.submit id, .writeHeader, .writeFrames, .finish].map .wal ++
    [.caller 0, .caller 0, .caller 0]

def blankWrite (id : ℕ) : List Label := writeCall blankSet id

/-- The lock of the shard that `oneShard` gives every key. -/
def blankSlots (pc : WritePc) : Shard → Slot :=
  Function.update (fun _ => .readers []) 0 (.writer ⟨blankSet, pc⟩)

@[simp] theorem blankSlots_zero (pc : WritePc) : blankSlots pc 0 = .writer ⟨blankSet, pc⟩ :=
  Function.update_self ..

@[simp] theorem blankSlots_update (pc pc' : WritePc) :
    Function.update (blankSlots pc) 0 (.writer ⟨blankSet, pc'⟩) = blankSlots pc' :=
  Function.update_idem ..

@[simp] theorem blankSlots_release (pc : WritePc) :
    Function.update (blankSlots pc) 0 (.readers []) = fun _ => .readers [] := by
  rw [blankSlots, Function.update_idem]
  exact Function.update_eq_self 0 _

/-- Writing the same entry again changes nothing. -/
theorem blankShards_update (n : ℕ) (shards : Shard → Store)
    (h : shards = if n = 0 then fun _ => ∅ else blankShards) :
    Function.update shards 0 (applyOp blankSet (shards 0)) = blankShards := by
  subst h
  split
  · rfl
  · have hzero : blankShards 0 = applyOp blankSet ∅ := Function.update_self ..
    have htwice : applyOp blankSet (applyOp blankSet ∅) = applyOp blankSet ∅ := by decide +kernel
    rw [hzero, htwice, blankShards, Function.update_idem]

theorem Idle.count {n : ℕ} {s : KVStore} (h : Idle n s) (hn : n < 2^30) :
    ∃ wal, WalIdle (n+1) wal ∧
      run (KVStore.step .little oneShard) s (blankWrite s.wal.nextId) = some { s with
        wal := wal
        slots := blankSlots (.counted s.wal.nextId false (n+1 == kSnapshotInterval))
        shards := blankShards
        writesSinceSnapshot := n+1 } := by
  obtain ⟨w₁,w₂,hprep,hrun,hfound,hidle⟩ := h.wal.write hn
  have hkey : shardIndex oneShard blankSet.key = 0 := rfl
  have hshards := blankShards_update n s.shards h.shards
  let s₁ : KVStore := { s with wal := w₁, slots := blankSlots (.appending s.wal.nextId) }
  have h₁ : run (KVStore.step .little oneShard) s
      [.call blankSet, .lockShard blankSet, .caller 0] = some s₁ := by
    have hslots : Function.update (fun _ => .readers []) 0 (.writer ⟨blankSet, .locked⟩) =
        blankSlots .locked := rfl
    simp [run_cons, KVStore.step, h.error, h.calling, hkey, h.slots, KVStore.callerStep,
      KVStore.setSlot, hslots, hprep, s₁]
  have h₂ := KVStore.run_wal oneShard s₁ (by simp) hrun
  refine ⟨w₂, hidle, ?_⟩
  rw [blankWrite, writeCall, run_append, run_append, h₁, Option.bind_some, h₂, Option.bind_some]
  simp [run_cons, KVStore.step, KVStore.callerStep, KVStore.setSlot, s₁, hfound, hshards, h.writes]
  rfl

/-- One thread makes any number of writes below the interval. -/
theorem Idle.reach {s : KVStore} (h : Idle 0 s) (n : ℕ) (hn : n < kSnapshotInterval) :
    ∃ ls t, (∀ kind, .enter kind ∉ ls) ∧ run (KVStore.step .little oneShard) s ls = some t ∧
      Idle n t := by
  induction n with
  | zero => exact ⟨[], s, by simp, rfl, h⟩
  | succ n ih =>
    obtain ⟨ls,t,hcalls,hrun,ht⟩ := ih (Nat.lt_of_succ_lt hn)
    obtain ⟨wal,hwal,hcount⟩ := ht.count (by unfold kSnapshotInterval at hn; omega)
    have hdue : (n+1 == kSnapshotInterval) = false := by simp [Nat.ne_of_lt hn]
    refine ⟨ls ++ (blankWrite t.wal.nextId ++ [.caller 0]), { t with
      wal := wal
      slots := fun _ => .readers []
      shards := blankShards
      writesSinceSnapshot := n+1
      returned := t.returned ++ [⟨t.wal.nextId, blankSet, false⟩] }, ?_, ?_, ?_⟩
    · intro kind
      simp [hcalls kind, blankWrite, writeCall]
    · rw [run_append, hrun, Option.bind_some, run_append, hcount, Option.bind_some]
      simp [run_cons, KVStore.step, KVStore.callerStep, KVStore.setSlot, hdue]
    · exact { ht with wal := hwal, slots := rfl, shards := rfl, writes := rfl }

/-- The write that has to request a checkpoint, up to the request. -/
theorem Idle.due {s : KVStore} (h : Idle (kSnapshotInterval-1) s) :
    ∃ wal, WalIdle kSnapshotInterval wal ∧
      run (KVStore.step .little oneShard) s (blankWrite s.wal.nextId) = some { s with
        wal := wal
        slots := blankSlots (.counted s.wal.nextId false true)
        shards := blankShards
        writesSinceSnapshot := kSnapshotInterval } := by
  obtain ⟨wal,hwal,hcount⟩ := h.count (by decide)
  have hinterval : kSnapshotInterval-1+1 = kSnapshotInterval := rfl
  rw [hinterval, beq_self_eq_true] at hcount
  exact ⟨wal, hwal, hcount⟩

/-! ### Passes over the locks -/

/-- The holder of `snapshot_mutex_` does the same at one shard after the other. -/
theorem run_shards {host : ByteOrder} {hash : Bytes → ℕ} {kind : AdminKind} (pc : ℕ → AdminPc)
    {a b : Slot}
    (hstep : ∀ (s : KVStore) (n : ℕ) (h : n < kShardCount), s.admin = some ⟨kind, pc n⟩ →
      s.slots ⟨n,h⟩ = a → s.adminStep host = some { s.setSlot ⟨n,h⟩ b with
        admin := some ⟨kind, pc (n+1)⟩ })
    {s : KVStore} (hadmin : s.admin = some ⟨kind, pc 0⟩) (hslots : s.slots = fun _ => a) :
    run (KVStore.step host hash) s (List.replicate kShardCount .admin) = some { s with
      slots := fun _ => b
      admin := some ⟨kind, pc kShardCount⟩ } := by
  have hpass (n : ℕ) (hn : n ≤ kShardCount) :
      run (KVStore.step host hash) s (List.replicate n .admin) = some { s with
        slots := fun i => if i.val < n then b else a
        admin := some ⟨kind, pc n⟩ } := by
    induction n with
    | zero =>
      simp [hslots.symm, hadmin.symm]
    | succ n ih =>
      have hupdate : (Function.update (fun i => if i.val < n then b else a) ⟨n,hn⟩ b) =
          fun i : Shard => if i.val < n+1 then b else a := by
        funext i
        by_cases hi : i = ⟨n,hn⟩
        · subst hi
          simp
        · have hne : i.val ≠ n := fun h => hi (Fin.ext h)
          rw [Function.update_of_ne hi]
          simp only [Nat.lt_succ_iff_lt_or_eq, hne, or_false]
      rw [List.replicate_succ', run_append, ih (Nat.le_of_succ_le hn), Option.bind_some, run_cons,
        KVStore.step, hstep _ n hn rfl (if_neg (Nat.lt_irrefl n)), Option.bind_some, run_nil]
      simp only [KVStore.setSlot, hupdate]
  rw [hpass kShardCount le_rfl]
  congr 2
  funext i
  exact if_pos i.isLt

section passes

variable {host : ByteOrder} {hash : Bytes → ℕ} {s : KVStore} {kind : AdminKind}

/-- `LockAllShardsExclusive` on free locks. -/
theorem run_lock (hadmin : s.admin = some ⟨kind, .locking 0⟩)
    (hslots : s.slots = fun _ => .readers []) :
    run (KVStore.step host hash) s (List.replicate kShardCount .admin) = some { s with
      slots := fun _ => .admin
      admin := some ⟨kind, .locking kShardCount⟩ } := by
  refine run_shards .locking (fun s n hn hs hslot => ?_) hadmin hslots
  simp only [KVStore.adminStep, hs, dif_pos hn, if_pos hslot]

theorem run_unlock {failed : Bool} (hadmin : s.admin = some ⟨kind, .unlocking failed 0⟩)
    (hslots : s.slots = fun _ => .admin) :
    run (KVStore.step host hash) s (List.replicate kShardCount .admin) = some { s with
      slots := fun _ => .readers []
      admin := some ⟨kind, .unlocking failed kShardCount⟩ } := by
  refine run_shards (.unlocking failed) (fun s n hn hs hslot => ?_) hadmin hslots
  simp only [KVStore.adminStep, hs, dif_pos hn]

theorem run_release {data : Store} {walOffset : ℕ}
    (hadmin : s.admin = some ⟨kind, .releasing data walOffset 0⟩)
    (hslots : s.slots = fun _ => .admin) :
    run (KVStore.step host hash) s (List.replicate kShardCount .admin) = some { s with
      slots := fun _ => .readers []
      admin := some ⟨kind, .releasing data walOffset kShardCount⟩ } := by
  refine run_shards (.releasing data walOffset) (fun s n hn hs hslot => ?_) hadmin hslots
  simp only [KVStore.adminStep, hs, dif_pos hn]

end passes

end ConcurrentKV

import ConcurrentKV.KVHolding

/-! Recovery after a crash of the process. The files always hold the acknowledged
operations: the live map is a fixpoint of replaying the whole log, so that even a snapshot at
offset 0 next to the whole log recovers to it. -/
namespace ConcurrentKV
open ByteCodec OpLog Sharding Transition

/-- The files of any number of crashed sessions. -/
inductive CrashReachable (host : ByteOrder) (hash : Bytes → ℕ) : Disk → Prop where
  | empty (snapshot temp : Option Bytes) (hsnap : snapshot = none ∨ snapshot = some []) :
      CrashReachable host hash ⟨[], snapshot, temp⟩
  | v2 (ops : List WalRecord) (temp : Option Bytes) (hne : ops ≠ [])
      (hok : ∀ op ∈ ops, RecordOk false op)
      (hroom : (framesFrom host false 1 ops).length ≤ kMaxStreamoff) :
      CrashReachable host hash ⟨framesFrom host false 1 ops, none, temp⟩
  | crash {disk disk' : Disk} (policy : DurabilityPolicy) (maxBatch : ℕ) (labels : List Label)
      {s t : KVStore} (hdisk : CrashReachable host hash disk)
      (hopen : openStore host hash disk policy maxBatch = .ok s)
      (hlabels : ∀ l ∈ labels, l.recoverable = true)
      (hrun : run (KVStore.step host hash) s labels = some t) (hcrash : t.Crash disk') :
      CrashReachable host hash disk'

variable {host : ByteOrder} {hash : Bytes → ℕ} {m : Store} {s t : KVStore} {base : WriteAheadLog}
  {before : List WalRecord} {settled : List Request} {disk disk' : Disk}

theorem Holding.crash_acked (h : Holding host hash m s base before settled True)
    (hcrash : s.Crash disk) :
    ∃ inFlight : List Request, (∀ r ∈ inFlight, r ∈ s.wal.outstanding) ∧
      DiskHolds host disk (applyOps (inFlight.map Request.op)
        (applyOps (s.wal.acked.map Request.op) m)) True := by
  obtain ⟨extra,hextra,hdisk⟩ := h.crash hcrash fun _ _ _ => trivial
  exact h.over_acked hextra hdisk

/-- From the start of a session to any of its states. -/
theorem DiskHolds.reach (h : DiskHolds host disk m True) {policy : DurabilityPolicy} {maxBatch : ℕ}
    (hopen : openStore host hash disk policy maxBatch = .ok s) {labels : List Label}
    (hlabels : ∀ l ∈ labels, l.recoverable = true)
    (hrun : run (KVStore.step host hash) s labels = some t) :
    s.collectData = m ∧ ∃ base before settled, Holding host hash m t base before settled True := by
  obtain ⟨wal,ops,hopen',-,hs⟩ := h.opens hash policy (openStore_maxBatch hopen)
  rw [hopen] at hopen'
  obtain rfl := Except.ok.inj hopen'
  refine ⟨KVStore.collectData_start .., ?_⟩
  refine run_invariant (P := fun s => ∃ base before settled,
    Holding host hash m s base before settled True) ?_ hlabels hrun ⟨wal, ops, [], hs⟩
  rintro s l t hl ⟨base,before,settled,hs⟩ hstep
  rcases hs.step hl (KVStore.steps_of_step hstep) fun _ _ _ _ => trivial with
    ⟨-,ht⟩ | ⟨batch,n,-,-,-,-,ht⟩ | ⟨kind,wal,-,-,-,ht⟩
  · exact ⟨_, _, _, ht⟩
  · exact ⟨_, _, _, ht⟩
  · exact ⟨_, _, _, ht⟩

/-- Any number of sessions and crashes leave such files. -/
theorem CrashReachable.holds (h : CrashReachable host hash disk) :
    ∃ m, DiskHolds host disk m True := by
  induction h with
  | empty snapshot temp hsnap => exact ⟨∅, diskHolds_empty hsnap temp⟩
  | v2 ops temp hne hok hroom => exact ⟨applyOps ops ∅, diskHolds_v2 hne hok hroom temp⟩
  | crash policy maxBatch labels hdisk hopen hlabels hrun hcrash ih =>
    obtain ⟨m,hm⟩ := ih
    obtain ⟨-,base,before,settled,ht⟩ := hm.reach hopen hlabels hrun
    obtain ⟨inFlight,-,hdisk'⟩ := ht.crash_acked hcrash
    exact ⟨_, hdisk'⟩

/-- The next startup finds the acknowledged operations. -/
theorem Holding.restart (h : Holding host hash m s base before settled True)
    {inFlight : List Request} (hout : ∀ r ∈ inFlight, r ∈ s.wal.outstanding)
    (hdisk : DiskHolds host disk (applyOps (inFlight.map Request.op)
      (applyOps (s.wal.acked.map Request.op) m)) True)
    (policy : DurabilityPolicy) {maxBatch : ℕ} (hbatch : 1 ≤ maxBatch ∧ maxBatch ≤ 4096) :
    ∃ (u : KVStore) (inFlight : List Request), openStore host hash disk policy maxBatch = .ok u ∧
      u.collectData = applyOps (inFlight.map Request.op)
        (applyOps (s.wal.acked.map Request.op) m) ∧
      (∀ r ∈ inFlight,
        s.slots (shardIndex hash r.op.key) = .writer ⟨r.op, .appending r.id⟩) ∧
      (∀ c ∈ s.returned, ∃ r ∈ s.wal.acked, r.id = c.id ∧ r.op = c.op) := by
  obtain ⟨wal,ops,hu,-⟩ := hdisk.opens hash policy hbatch
  refine ⟨_, inFlight, hu, KVStore.collectData_start .., fun r hr => h.mem.own.owner r (hout r hr),
    ?_⟩
  intro c hc
  obtain ⟨hres,r,hr,hid,hop⟩ := h.mem.returned c hc
  refine ⟨r, List.mem_filter.mpr ⟨hr, ?_⟩, hid, hop⟩
  rw [hid]
  exact decide_eq_true hres

/-- The recovery contract. However many sessions have crashed before, the next startup after
a crash rebuilds the map the session started from with its acknowledged operations in log
order, followed by records of calls that are still waiting for their append. -/
theorem recovery_contract (hdisk : CrashReachable host hash disk) {policy : DurabilityPolicy}
    {maxBatch : ℕ} (hopen : openStore host hash disk policy maxBatch = .ok s)
    {labels : List Label} (hlabels : ∀ l ∈ labels, l.recoverable = true)
    (hrun : run (KVStore.step host hash) s labels = some t) (hcrash : t.Crash disk')
    (policy' : DurabilityPolicy) {maxBatch' : ℕ} (hbatch : 1 ≤ maxBatch' ∧ maxBatch' ≤ 4096) :
    ∃ (u : KVStore) (inFlight : List Request), openStore host hash disk' policy' maxBatch' = .ok u ∧
      u.collectData = applyOps (inFlight.map Request.op)
        (applyOps (t.wal.acked.map Request.op) s.collectData) ∧
      (∀ r ∈ inFlight,
        t.slots (shardIndex hash r.op.key) = .writer ⟨r.op, .appending r.id⟩) ∧
      (∀ c ∈ t.returned, ∃ r ∈ t.wal.acked, r.id = c.id ∧ r.op = c.op) := by
  obtain ⟨m,hm⟩ := hdisk.holds
  obtain ⟨rfl,base,before,settled,ht⟩ := hm.reach hopen hlabels hrun
  obtain ⟨inFlight,hout,hdisk'⟩ := ht.crash_acked hcrash
  exact ht.restart hout hdisk' policy' hbatch

/-- A crash three bytes into the first frame of a new store. -/
theorem recovery_after_torn_frame :
    ∃ s t, openStore .little (fun _ => 0) ⟨[], none, none⟩ .sync 1 = .ok s ∧
      run (KVStore.step .little (fun _ => 0)) s [.call (.set [1] [2]), .lockShard (.set [1] [2]),
        .caller 0, .wal (.submit 0), .wal .writeHeader] = some t ∧
      ∃ (u : KVStore) (inFlight : List Request), openStore .little (fun _ => 0)
          ⟨t.wal.wal.file ++ t.wal.inProgress.take 3, none, none⟩ .buffered 1 = .ok u ∧
        u.collectData = applyOps (inFlight.map Request.op)
          (applyOps (t.wal.acked.map Request.op) s.collectData) := by
  have hopen : openStore .little (fun _ => 0) ⟨[], none, none⟩ .sync 1 = .ok (KVStore.start
      (fun _ => 0) { file := [], policy := .sync, maxBatch := 1, headerPending := true } ∅ none
      none) := rfl
  have hrun : (run (KVStore.step .little (fun _ => 0)) (KVStore.start (fun _ => 0)
      { file := [], policy := .sync, maxBatch := 1, headerPending := true } ∅ none none)
      [.call (.set [1] [2]), .lockShard (.set [1] [2]), .caller 0, .wal (.submit 0),
        .wal .writeHeader]).map (fun t => ((t.wal.wal.file ++ t.wal.inProgress.take 3).length,
      t.snapshot)) = some (27, none) := by decide +kernel
  obtain ⟨t,ht,he⟩ := Option.map_eq_some_iff.mp hrun
  obtain ⟨hlen,hsnap⟩ := Prod.mk.inj he
  have hcrash : t.Crash ⟨t.wal.wal.file ++ t.wal.inProgress.take 3, none, none⟩ :=
    ⟨⟨⟨3,rfl⟩, hlen.trans_le (by decide)⟩, hsnap.symm⟩
  obtain ⟨u,inFlight,hu,hdata,-⟩ := recovery_contract (.empty none none (.inl rfl)) hopen
    (by decide) ht hcrash .buffered ⟨le_refl 1, by decide⟩
  exact ⟨_, t, hopen, ht, u, inFlight, hu, hdata⟩

end ConcurrentKV

import ConcurrentKV.CrashRecovery

/-! Recovery after a power loss, for the policies that sync. It may cut the log anywhere
behind its last sync, bring back what an unsynced truncation removed, and bring back the
snapshot from before a rename whose directory is not synced. -/
namespace ConcurrentKV
open ByteCodec OpLog Sharding Transition

/-- The files that a power loss can leave. -/
def KVStore.PowerLoss (s : KVStore) (disk : Disk) : Prop :=
  s.wal.PowerLossFile disk.wal ∧ disk.snapshot ∈ s.snapshot :: s.unsynced

variable {host : ByteOrder} {hash : Bytes → ℕ} {m : Store} {s t : KVStore} {base : WriteAheadLog}
  {before : List WalRecord} {settled : List Request} {disk : Disk}

theorem Ground.policy {w : WalThreads} (h : Ground host w base before settled) :
    w.wal.policy = base.policy := by
  have hg := h.grounded
  unfold Grounded at hg
  split at hg
  · rw [hg.2.1]
    rfl
  · rw [hg.2.1]
    rfl
  · rw [hg.2.1]

/-- Only the truncation itself leaves something to sync. -/
theorem KVStore.Steps.truncating {l : Label} (h : KVStore.Steps host hash s l t)
    (hl : l.recoverable = true) (hrot : ¬s.Rotates t) :
    t.wal.truncating = none ∨ t.wal.truncating = s.wal.truncating := by
  cases h with
  | prepare i op wal hslot hwal => exact .inr (WalThreads.append_truncating rfl hwal)
  | wal w wal hprep hwal => exact .inr (WalThreads.append_truncating hl hwal)
  | rotate kind wal hadmin hwal => exact absurd ⟨kind, hadmin, rfl⟩ hrot
  | syncTruncation kind wal hadmin hwal =>
    rcases hwal with hwal | ⟨rfl,hnone⟩
    · cases WalThreads.steps_of_step hwal
      exact .inl rfl
    · exact .inl hnone
  | _ => exact .inr rfl

/-- Until the truncation is synced, the files stay as they are. -/
theorem KVStore.Steps.of_truncated {l : Label} (h : KVStore.Steps host hash s l t)
    {kind : AdminKind} (hs : s.admin = some ⟨kind, .truncated⟩) :
    t.wal.truncating = none ∨
      (t.admin = s.admin ∧ t.snapshot = s.snapshot ∧ t.unsynced = s.unsynced) := by
  cases h with
  | syncTruncation kind wal hadmin hwal =>
    rcases hwal with hwal | ⟨rfl,hnone⟩
    · cases WalThreads.steps_of_step hwal
      exact .inl rfl
    · exact .inl hnone
  | enter _ _ hadmin | enterCheckpoint _ _ hadmin | cancelled _ hadmin | checked _ hadmin
  | cancel _ _ hadmin | lock _ _ _ hadmin | captureFails _ _ _ hadmin
  | captureCheckpoint _ _ _ _ hadmin | captureSave _ _ _ hadmin | captureCompact _ _ hadmin
  | captureClear _ _ hadmin | release _ _ _ _ _ hadmin | released _ _ _ _ _ hadmin
  | writeTemp _ _ _ _ _ hadmin | writeTempFails _ _ _ _ _ hadmin | syncTemp _ _ _ hadmin
  | rename _ _ _ hadmin | syncDirectory _ _ _ hadmin | verified _ _ _ hadmin
  | verifyFails _ _ _ hadmin | rotate _ _ hadmin | rotateFails _ hadmin | removeSnapshot _ hadmin
  | removeTemp _ hadmin | syncRemoval _ hadmin | reset _ hadmin | unlock _ _ _ _ hadmin
  | leave _ _ _ _ hadmin =>
    rw [hs] at hadmin
    cases hadmin
  | fault call hadmin hpc =>
    rw [hs] at hadmin
    cases hadmin
    cases hpc
  | _ => exact .inr ⟨rfl, rfl, rfl⟩

/-- A session whose files hold its map even after a power loss. -/
structure PowerSafe (host : ByteOrder) (hash : Bytes → ℕ) (m : Store) (s : KVStore)
    (base : WriteAheadLog) (before : List WalRecord) (settled : List Request) : Prop
    extends Holding host hash m s base before settled True where
  policy : base.policy ≠ .buffered
  truncation : ∀ old, s.wal.truncating = some old →
    (∃ kind, s.admin = some ⟨kind, .truncated⟩) ∧ s.unsynced = [] ∧
    ∃ disk : Disk, disk.wal = old ∧ disk.snapshot = s.snapshot ∧
      DiskHolds host disk (applyOps (settled.map Request.op) m) True

namespace PowerSafe

theorem step {l : Label} (h : PowerSafe host hash m s base before settled)
    (hl : l.recoverable = true) (hsteps : KVStore.Steps host hash s l t) :
    ∃ base before settled, PowerSafe host hash m t base before settled := by
  rcases h.toHolding.step hl hsteps fun _ _ _ _ => trivial with
    ⟨hrot,ht⟩ | ⟨batch,n,hd,-,hbusy,htr,ht⟩ | ⟨kind,wal,hadmin,hwal,rfl,ht⟩
  · refine ⟨base, before, settled, ht, h.policy, ?_⟩
    intro old hold
    rcases hsteps.truncating hl hrot with hnone | hsame
    · rw [hnone] at hold
      cases hold
    · rw [hsame] at hold
      obtain ⟨⟨kind,hadmin⟩,hun,hdisk⟩ := h.truncation old hold
      rcases hsteps.of_truncated hadmin with hnone | ⟨ha,hs,hu⟩
      · rw [hsame, hold] at hnone
        cases hnone
      · rw [ha, hs, hu]
        exact ⟨⟨kind,hadmin⟩, hun, hdisk⟩
  · refine ⟨_, _, _, ht, h.policy, ?_⟩
    intro old hold
    rw [htr] at hold
    obtain ⟨⟨kind,hadmin⟩,-⟩ := h.truncation old hold
    exact absurd (h.quiet (h.all_locked hadmin fun i => trivial)).1 hbusy
  · -- the truncated log still goes with the copy that replaces it
    obtain ⟨-,hbase,-,-⟩ := h.quiet (h.all_locked hadmin fun i => trivial)
    refine ⟨_, _, _, ht, hbase ▸ h.policy, ?_⟩
    intro old hold
    obtain ⟨-,hun,-⟩ := h.snap.busy kind _ hadmin
    refine ⟨⟨kind,rfl⟩, hun, ⟨old, s.snapshot, none⟩, rfl, rfl, ?_⟩
    have hfile : old = s.wal.wal.file := by
      cases WalThreads.steps_of_step hwal with
      | clear =>
        have hp : s.wal.wal.policy ≠ .buffered := hbase ▸ h.policy
        simpa [hp] using hold.symm
    obtain ⟨m',rfl,hcov⟩ := h.held fun _ _ _ => trivial
    subst hfile hbase
    exact ⟨h.base_room, h.fit, before, h.ground.inv.agree.fileShape, hcov, h.fixed⟩

theorem powerLoss (h : PowerSafe host hash m s base before settled) (hloss : s.PowerLoss disk) :
    ∃ inFlight : List Request, (∀ r ∈ inFlight, r ∈ s.wal.outstanding) ∧
      DiskHolds host disk (applyOps (inFlight.map Request.op)
        (applyOps (s.wal.acked.map Request.op) m)) True := by
  obtain ⟨⟨hpre,hsync,hroom⟩ | htrunc,hsnap⟩ := hloss
  · have hpol : s.wal.wal.policy ≠ .buffered := h.ground.policy ▸ h.policy
    obtain ⟨extra,hextra,hshape,hres⟩ := h.ground.powerLoss hpol hpre hsync
    refine h.over_acked hextra (h.left hshape hres hroom ?_)
    rcases List.mem_cons.mp hsnap with hsnap | hsnap
    · rw [hsnap]
      exact h.held fun _ _ _ => trivial
    · exact h.snap.older _ hsnap
  · obtain ⟨-,hun,⟨wal,snapshot,temp⟩,hwal,hsnap',hok⟩ := h.truncation _ htrunc
    rw [hun, List.mem_singleton, ← hsnap'] at hsnap
    obtain ⟨hroom,hfit,hcov⟩ := hok
    dsimp only at hroom hcov hwal hsnap
    rw [hwal] at hroom hcov
    rw [← hsnap] at hcov
    refine h.over_acked (by simp : ∀ r ∈ ([] : List Request), r ∈ s.wal.outstanding) ?_
    rw [List.append_nil]
    exact ⟨hroom, hfit, hcov⟩

end PowerSafe

/-- Durability under power loss for the policies that sync. Whatever a power loss leaves of
a session from empty files, startup rebuilds the acknowledged operations in log order,
followed by records of calls that are still waiting for their append. -/
theorem durability_under_power_loss {snapshot temp : Option Bytes}
    (hsnap : snapshot = none ∨ snapshot = some []) {policy : DurabilityPolicy}
    (hpol : policy ≠ .buffered) {maxBatch : ℕ}
    (hopen : openStore host hash ⟨[], snapshot, temp⟩ policy maxBatch = .ok s)
    {labels : List Label} (hlabels : ∀ l ∈ labels, l.recoverable = true)
    (hrun : run (KVStore.step host hash) s labels = some t) (hloss : t.PowerLoss disk)
    (policy' : DurabilityPolicy) {maxBatch' : ℕ} (hbatch : 1 ≤ maxBatch' ∧ maxBatch' ≤ 4096) :
    ∃ (u : KVStore) (inFlight : List Request), openStore host hash disk policy' maxBatch' = .ok u ∧
      u.collectData = applyOps (inFlight.map Request.op)
        (applyOps (t.wal.acked.map Request.op) ∅) ∧
      (∀ r ∈ inFlight,
        t.slots (shardIndex hash r.op.key) = .writer ⟨r.op, .appending r.id⟩) ∧
      (∀ c ∈ t.returned, ∃ r ∈ t.wal.acked, r.id = c.id ∧ r.op = c.op) := by
  have hempty : DiskHolds host ⟨[], snapshot, temp⟩ ∅ True := diskHolds_empty hsnap temp
  obtain ⟨wal,ops,hopen',hp,hs⟩ := hempty.opens hash policy (openStore_maxBatch hopen)
  rw [hopen] at hopen'
  obtain rfl := Except.ok.inj hopen'
  have hstart : PowerSafe host hash ∅ (KVStore.start hash wal ∅ snapshot temp) wal ops [] :=
    ⟨hs, hp ▸ hpol, by simp [KVStore.start, WalThreads.start]⟩
  obtain ⟨base,before,settled,ht⟩ := run_invariant (P := fun s => ∃ base before settled,
      PowerSafe host hash ∅ s base before settled) (by
    intro s l t hl hsafe hstep
    obtain ⟨base,before,settled,hs⟩ := hsafe
    exact hs.step hl (KVStore.steps_of_step hstep)) hlabels hrun ⟨wal, ops, [], hstart⟩
  obtain ⟨inFlight,hout,hdisk⟩ := ht.powerLoss hloss
  exact ht.restart hout hdisk policy' hbatch

/-- A power loss after the first batch of a new store is flushed and before it is synced, which
keeps ten bytes of it. -/
theorem durability_of_unsynced_batch :
    ∃ s t, openStore .little (fun _ => 0) ⟨[], none, none⟩ .groupCommit 2 = .ok s ∧
      run (KVStore.step .little (fun _ => 0)) s [.call (.set [1] [2]), .lockShard (.set [1] [2]),
        .caller 0, .wal (.submit 0), .wal .cut, .wal .lockIo, .wal .writeHeader,
        .wal .writeFrames] = some t ∧
      t.PowerLoss ⟨t.wal.wal.file.take 10, none, none⟩ ∧
      ∃ (u : KVStore) (inFlight : List Request), openStore .little (fun _ => 0)
          ⟨t.wal.wal.file.take 10, none, none⟩ .sync 1 = .ok u ∧
        u.collectData = applyOps (inFlight.map Request.op)
          (applyOps (t.wal.acked.map Request.op) ∅) := by
  have hopen : openStore .little (fun _ => 0) ⟨[], none, none⟩ .groupCommit 2 = .ok (KVStore.start
      (fun _ => 0) { file := [], policy := .groupCommit, maxBatch := 2, headerPending := true } ∅
      none none) := rfl
  have hrun : (run (KVStore.step .little (fun _ => 0)) (KVStore.start (fun _ => 0)
      { file := [], policy := .groupCommit, maxBatch := 2, headerPending := true } ∅ none none)
      [.call (.set [1] [2]), .lockShard (.set [1] [2]), .caller 0, .wal (.submit 0), .wal .cut,
        .wal .lockIo, .wal .writeHeader, .wal .writeFrames]).map (fun t =>
      (t.wal.syncedLength, (t.wal.wal.file.take 10).length, t.snapshot)) = some (0, 10, none) := by
    decide +kernel
  obtain ⟨t,ht,he⟩ := Option.map_eq_some_iff.mp hrun
  simp only [Prod.mk.injEq] at he
  obtain ⟨hsync,hlen,hsnap⟩ := he
  have hloss : t.PowerLoss ⟨t.wal.wal.file.take 10, none, none⟩ := by
    refine ⟨.inl ⟨(List.take_prefix _ _).trans (List.prefix_append _ _), ?_, ?_⟩, ?_⟩
    · rw [hsync]
      exact Nat.zero_le _
    · exact hlen.trans_le (by decide)
    · rw [hsnap]
      exact List.mem_cons_self
  obtain ⟨u,inFlight,hu,hdata,-⟩ := durability_under_power_loss (.inl rfl) (by decide) hopen
    (by decide) ht hloss .sync ⟨le_refl 1, by decide⟩
  exact ⟨_, t, hopen, ht, hloss, u, inFlight, hu, hdata⟩

end ConcurrentKV

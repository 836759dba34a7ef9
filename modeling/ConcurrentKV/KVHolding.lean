import ConcurrentKV.KVSession
import ConcurrentKV.SnapshotFiles

/-! Sessions whose files hold their map. As long as the live map is a fixpoint of replaying the
whole log, a snapshot at offset 0 next to the whole log recovers to it as well; while it is
not, a compaction must get from its rename to its truncation. -/
namespace ConcurrentKV
open ByteCodec OpLog Sharding Transition

/-- The files that a crash of the process can leave. The temporary snapshot file can hold
anything: no startup reads it. -/
def KVStore.Crash (s : KVStore) (disk : Disk) : Prop :=
  s.wal.CrashFile disk.wal ∧ disk.snapshot = s.snapshot

/-- Everything but failed appends, truncations behind the store's back and
`ClearPersistence`. -/
def Label.recoverable : Label → Bool
  | .wal l => l.isAppend
  | .enter .clearPersistence => false
  | _ => true

/-- Files from which startup rebuilds `m`; under `fresh` it is a fixpoint of the log. -/
structure DiskHolds (host : ByteOrder) (disk : Disk) (m : Store) (fresh : Prop) : Prop where
  room : disk.wal.length ≤ kMaxStreamoff
  fit : FieldsFit m
  covers : ∃ ops, FileShape host disk.wal ops ∧ Covers host disk.snapshot disk.wal ops m ∧
    (fresh → Fixed ops m)

/-- A session whose files hold its map. -/
structure Holding (host : ByteOrder) (hash : Bytes → ℕ) (m : Store) (s : KVStore)
    (base : WriteAheadLog) (before : List WalRecord) (settled : List Request) (fresh : Prop) : Prop
    extends Session host hash m s base before settled where
  snap : SnapInv host (· = applyOps (settled.map Request.op) m) base.file before s.admin s.snapshot
    s.temp s.unsynced
  fixed : fresh → Fixed before (applyOps (settled.map Request.op) m)
  fit : FieldsFit (applyOps (settled.map Request.op) m)

variable {host : ByteOrder} {hash : Bytes → ℕ} {m : Store} {s t : KVStore} {base : WriteAheadLog}
  {before : List WalRecord} {settled : List Request} {fresh : Prop} {disk : Disk}

theorem KVStore.collectData_start (hash : Bytes → ℕ) (wal : WriteAheadLog) (m : Store)
    (snapshot temp : Option Bytes) : (KVStore.start hash wal m snapshot temp).collectData = m :=
  collect_split (shardIndex hash) m

theorem openStore_eq {policy : DurabilityPolicy} {maxBatch : ℕ}
    (h : openStore host hash disk policy maxBatch = .ok s) :
    ∃ wal m, openWal host disk.wal policy maxBatch = .ok wal ∧
      s = KVStore.start hash wal m disk.snapshot disk.temp := by
  unfold openStore startup at h
  split at h
  · cases h
  · rename_i wal m hstart
    obtain rfl := Except.ok.inj h
    repeat' split at hstart
    all_goals cases hstart
    exact ⟨_, _, ‹_›, rfl⟩

theorem openStore_maxBatch {policy : DurabilityPolicy} {maxBatch : ℕ}
    (h : openStore host hash disk policy maxBatch = .ok s) : 1 ≤ maxBatch ∧ maxBatch ≤ 4096 := by
  obtain ⟨wal,m,hopen,-⟩ := openStore_eq h
  exact openWal_maxBatch hopen

namespace Holding

theorem base_room (h : Holding host hash m s base before settled fresh) :
    base.file.length ≤ kMaxStreamoff :=
  h.ground.span.1.length_le.trans h.ground.log.room

theorem capture (h : Holding host hash m s base before settled fresh) {kind : AdminKind} {n : ℕ}
    (hadmin : s.admin = some ⟨kind, .locking n⟩) (hn : kShardCount ≤ n) :
    SnapInv.Capture (· = applyOps (settled.map Request.op) m) base.file s := by
  have hall := h.all_locked hadmin fun i => i.isLt.trans_le hn
  obtain ⟨-,rfl,-,hdata⟩ := h.quiet hall
  refine ⟨hdata, hdata ▸ h.fit, ?_⟩
  intro off hoff
  unfold WriteAheadLog.currentOffset at hoff
  split at hoff
  · exact (Except.ok.inj hoff).symm
  · cases hoff

/-- While a batch is outstanding nobody has all shards locked. -/
theorem not_compacting (h : Holding host hash m s base before settled fresh)
    (hbusy : s.wal.outstanding ≠ []) (call : AdminCall) (hcall : s.admin = some call) :
    call.compacting = false := by
  rw [← Bool.not_eq_true]
  intro hc
  exact hbusy (h.quiet (h.all_locked hcall (AdminCall.holds_of_compacting hc))).1

/-- One step. An exposed copy may be left behind only over a log that leaves it as it is. -/
theorem step {l : Label} (h : Holding host hash m s base before settled fresh)
    (hl : l.recoverable = true) (hsteps : KVStore.Steps host hash s l t)
    (hcalm : ∀ call, s.admin = some call → call.exposed = true →
      t.admin = (s.throw call).admin → fresh) :
    (¬s.Rotates t ∧ Holding host hash m t base before settled fresh) ∨
    (∃ batch n, DuringWrite host base n before batch ∧ (∀ r ∈ batch, r ∈ s.wal.outstanding) ∧
      s.wal.outstanding ≠ [] ∧ t.wal.truncating = s.wal.truncating ∧
      Holding host hash m t (base.appended host (batch.map Request.op))
        (before ++ batch.map Request.op) (settled ++ batch) fresh) ∨
    (∃ kind wal, s.admin = some ⟨kind, .rotating⟩ ∧ s.wal.step host .clear = some wal ∧
      t = { s with wal := wal, admin := some ⟨kind, .truncated⟩ } ∧
      Holding host hash m t s.wal.wal.cleared [] settled True) := by
  have hok : l.appendsOk = true := by
    cases l with
    | wal w => exact hl
    | _ => rfl
  have hclear : l ≠ .enter .clearPersistence := by
    rintro rfl
    cases hl
  rcases h.toSession.step hok hsteps with ⟨hrot,ht⟩ | ⟨batch,n,hd,hout,ha,hs,htemp,hun,htr,ht⟩ |
    ⟨kind,wal,hadmin,hwal,rfl,ht⟩
  · refine .inl ⟨hrot, ht, ?_, h.fixed, h.fit⟩
    refine h.snap.step h.path h.base_room hsteps hclear hrot (fun kind n => h.capture) ?_
    rintro call hcall hexp hthrow D rfl -
    exact h.fixed (hcalm call hcall hexp hthrow)
  · have hbusy : s.wal.outstanding ≠ [] := by
      obtain ⟨r,hr⟩ := List.exists_mem_of_ne_nil _ hd.limits.ne_nil
      exact List.ne_nil_of_mem (hout r hr)
    have hmap : applyOps ((settled ++ batch).map Request.op) m =
        applyOps (batch.map Request.op) (applyOps (settled.map Request.op) m) := by
      rw [List.map_append, applyOps_append]
    refine .inr (.inl ⟨batch, n, hd, hout, hbusy, htr, ht, ?_, ?_, ?_⟩)
    · rw [ha, hs, htemp, hun]
      refine h.snap.grow h.path ?_ (fun W j => hd.resumes) (h.not_compacting hbusy)
      rintro m' rfl
      exact hmap.symm
    · intro hfresh
      rw [hmap]
      exact (h.fixed hfresh).append _
    · rw [hmap]
      exact h.fit.applyOps hd.ok
  · exact .inr (.inr ⟨kind, wal, hadmin, hwal, rfl, ht, h.snap.rotate hadmin,
      fun _ => fixed_nil _, h.fit⟩)

/-- The content at the snapshot's path recovers to the settled map. -/
theorem held (h : Holding host hash m s base before settled fresh)
    (hcalm : ∀ call, s.admin = some call → call.exposed = true → fresh) :
    Held host (· = applyOps (settled.map Request.op) m) base.file before s.snapshot :=
  h.snap.held h.path h.base_room fun call hcall hexp _ hD _ => hD ▸ h.fixed (hcalm call hcall hexp)

/-- Files that are left of a session hold its settled map, and perhaps records of calls that
are still waiting for their append. -/
theorem left (h : Holding host hash m s base before settled fresh) {extra : List Request}
    (hshape : FileShape host disk.wal (before ++ extra.map Request.op))
    (hres : ∀ W j, Resumes host base.file before W j →
      Resumes host disk.wal (before ++ extra.map Request.op) W j)
    (hroom : disk.wal.length ≤ kMaxStreamoff)
    (hheld : Held host (· = applyOps (settled.map Request.op) m) base.file before disk.snapshot) :
    DiskHolds host disk (applyOps ((settled ++ extra).map Request.op) m) fresh := by
  obtain ⟨m',rfl,hcov⟩ := hheld
  rw [List.map_append, applyOps_append]
  refine ⟨hroom, ?_, before ++ extra.map Request.op, hshape, hcov.grow hres, ?_⟩
  · obtain ⟨portable,hok⟩ := hshape.recordOk
    exact h.fit.applyOps fun op hop => hok op (List.mem_append_right _ hop)
  · intro hfresh
    exact (h.fixed hfresh).append _

theorem crash (h : Holding host hash m s base before settled fresh) (hcrash : s.Crash disk)
    (hcalm : ∀ call, s.admin = some call → call.exposed = true → fresh) :
    ∃ extra : List Request, (∀ r ∈ extra, r ∈ s.wal.outstanding) ∧
      DiskHolds host disk (applyOps ((settled ++ extra).map Request.op) m) fresh := by
  obtain ⟨hfile,hsnap⟩ := hcrash
  obtain ⟨extra,hextra,hshape,hres⟩ := h.ground.crash hfile
  exact ⟨extra, hextra, h.left hshape hres hfile.2 (hsnap ▸ h.held hcalm)⟩

/-- The settled operations are the acknowledged ones, in log order, and records of calls that
are still waiting for their append. -/
theorem over_acked (h : Holding host hash m s base before settled fresh) {extra : List Request}
    (hextra : ∀ r ∈ extra, r ∈ s.wal.outstanding)
    (hdisk : DiskHolds host disk (applyOps ((settled ++ extra).map Request.op) m) fresh) :
    ∃ inFlight : List Request, (∀ r ∈ inFlight, r ∈ s.wal.outstanding) ∧
      DiskHolds host disk (applyOps (inFlight.map Request.op)
        (applyOps (s.wal.acked.map Request.op) m)) fresh := by
  obtain ⟨rest,hrest,hout⟩ := h.ground.acked_settled h.mem.order h.mem.own.ids
  refine ⟨rest ++ extra, ?_, ?_⟩
  · intro r hr
    rcases List.mem_append.mp hr with hr | hr
    · exact hout r hr
    · exact hextra r hr
  · rw [← applyOps_append, ← List.map_append, ← List.append_assoc, ← hrest]
    exact hdisk

end Holding

theorem DiskHolds.mono {fresh' : Prop} (h : DiskHolds host disk m fresh) (hf : fresh' → fresh) :
    DiskHolds host disk m fresh' := by
  obtain ⟨hroom,hfit,ops,hshape,hcov,hfixed⟩ := h
  exact ⟨hroom, hfit, ops, hshape, hcov, fun h => hfixed (hf h)⟩

theorem diskHolds_empty {snapshot : Option Bytes} (hsnap : snapshot = none ∨ snapshot = some [])
    (temp : Option Bytes) : DiskHolds host ⟨[], snapshot, temp⟩ ∅ fresh := by
  refine ⟨Nat.zero_le _, fieldsFit_empty, [], .empty, ?_, fun _ => fixed_nil _⟩
  rcases hsnap with rfl | rfl
  · exact covers_none host [] []
  · exact ⟨{}, ∅, rfl, 0, .start, rfl⟩

theorem diskHolds_v2 {ops : List WalRecord} (hne : ops ≠ []) (hok : ∀ op ∈ ops, RecordOk false op)
    (hroom : (framesFrom host false 1 ops).length ≤ kMaxStreamoff) (temp : Option Bytes) :
    DiskHolds host ⟨framesFrom host false 1 ops, none, temp⟩ (applyOps ops ∅) fresh :=
  ⟨hroom, fieldsFit_empty.applyOps hok, ops, (WellFormedLog.v2 ops hne hok).fileShape,
    covers_none _ _ _, fun _ => fixed_applyOps _ _⟩

/-- A session on such files starts with their map, and its files hold it. -/
theorem DiskHolds.opens (h : DiskHolds host disk m fresh) (hash : Bytes → ℕ)
    (policy : DurabilityPolicy) {maxBatch : ℕ} (hbatch : 1 ≤ maxBatch ∧ maxBatch ≤ 4096) :
    ∃ wal ops, openStore host hash disk policy maxBatch =
        .ok (KVStore.start hash wal m disk.snapshot disk.temp) ∧ wal.policy = policy ∧
      Holding host hash m (KVStore.start hash wal m disk.snapshot disk.temp) wal ops [] fresh := by
  obtain ⟨hroom,hfit,ops,hshape,hcov,hfixed⟩ := h
  obtain ⟨wal,hstart,hfile,hpol,hmax,hinv⟩ := startup_of_covers hshape hroom hcov policy hbatch
  refine ⟨wal, ops, ?_, hpol, ?_, ?_, hfixed, hfit⟩
  · rw [openStore, hstart]
  · exact Session.start hinv (hmax ▸ hbatch) (hfile ▸ hroom) m disk.snapshot disk.temp
  · refine SnapInv.free (by simp [KVStore.start]) ⟨m, rfl, ?_⟩
    rw [hfile]
    exact hcov

end ConcurrentKV

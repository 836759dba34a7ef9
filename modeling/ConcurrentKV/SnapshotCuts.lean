import ConcurrentKV.CrashRecovery
import ConcurrentKV.KVQuiet
import ConcurrentKV.KVRuns

/-! The copies of the map that become snapshots. `snapshot_mutex_` is held from a copy to its
rename, so copies are published in the order in which they were made; a copy is made with all
shards locked, so it is the map of the whole log at that moment. -/
namespace ConcurrentKV
open ByteCodec OpLog Sharding Transition

/-- The copy that a call has made and has not yet renamed into place. -/
def AdminPc.pending : AdminPc → Option (Store × ℕ)
  | .releasing data walOffset _ | .saving .begin data walOffset
  | .saving .tempWritten data walOffset | .saving .tempSynced data walOffset =>
    some (data, walOffset)
  | _ => none

/-- The holder of `snapshot_mutex_` has this copy. -/
def KVStore.Pending (s : KVStore) (kind : AdminKind) (data : Store) (walOffset : ℕ) : Prop :=
  ∃ pc, s.admin = some ⟨kind, pc⟩ ∧ pc.pending = some (data, walOffset)

/-- Nobody has a copy: none was made since the last one was renamed into place or given up. -/
def KVStore.copyless (s : KVStore) : Bool :=
  match s.admin with
  | some ⟨_, pc⟩ => pc.pending.isNone
  | none => true

/-- The copy is made in the next step: all shards are locked, and the offset is that of the
log's end, except for a compaction. -/
structure KVStore.Captures (s : KVStore) (kind : AdminKind) (data : Store) (walOffset : ℕ) :
    Prop where
  admin : ∃ n, kShardCount ≤ n ∧ s.admin = some ⟨kind, .locking n⟩
  data : data = s.collectData
  offset : walOffset = if kind = .compactPersistence then 0 else s.wal.wal.file.length

variable {host : ByteOrder} {hash : Bytes → ℕ} {s t : KVStore} {l : Label} {kind : AdminKind}
  {data : Store} {walOffset : ℕ}

theorem KVStore.not_pending_of_copyless (h : s.copyless = true) :
    ¬s.Pending kind data walOffset := by
  rintro ⟨pc,hadmin,hpc⟩
  simp [copyless, hadmin, hpc] at h

theorem WriteAheadLog.currentOffset_eq {wal : WriteAheadLog} {offset : ℕ}
    (h : wal.currentOffset = .ok offset) : offset = wal.file.length := by
  unfold currentOffset at h
  split at h
  · exact (Except.ok.inj h).symm
  · cases h

/-- A copy comes into being only by being made. -/
theorem KVStore.Steps.captures (hsteps : KVStore.Steps host hash s l t)
    (hs : ¬s.Pending kind data walOffset) (ht : t.Pending kind data walOffset) :
    l = .admin ∧ s.Captures kind data walOffset := by
  have hkeep {kind' : AdminKind} {pc pc' : AdminPc} (hadmin : s.admin = some ⟨kind', pc⟩)
      (ht' : t.admin = some ⟨kind', pc'⟩) (hpc : pc'.pending = none ∨ pc'.pending = pc.pending) :
      False := by
    obtain ⟨pc'',ht,hpend⟩ := ht
    rw [ht'] at ht
    cases ht
    rcases hpc with hpc | hpc
    · rw [hpc] at hpend
      cases hpend
    · exact hs ⟨pc, hadmin, hpc ▸ hpend⟩
  have hnone (ht' : t.admin = none) : False := by
    obtain ⟨pc,ht,-⟩ := ht
    rw [ht'] at ht
    cases ht
  cases hsteps with
  | enter | enterCheckpoint =>
    obtain ⟨pc,hpc,hpend⟩ := ht
    cases hpc
    cases hpend
  | cancelled | leave => exact (hnone rfl).elim
  | captureCheckpoint epoch n offset hn hadmin hio hoff =>
    obtain ⟨pc,hpc,hpend⟩ := ht
    cases hpc
    obtain ⟨rfl,rfl⟩ := Prod.mk.inj (Option.some.inj hpend)
    exact ⟨rfl, ⟨n, hn, hadmin⟩, rfl, WriteAheadLog.currentOffset_eq hoff⟩
  | captureSave n offset hn hadmin hio hoff =>
    obtain ⟨pc,hpc,hpend⟩ := ht
    cases hpc
    obtain ⟨rfl,rfl⟩ := Prod.mk.inj (Option.some.inj hpend)
    exact ⟨rfl, ⟨n, hn, hadmin⟩, rfl, WriteAheadLog.currentOffset_eq hoff⟩
  | captureCompact n hn hadmin =>
    obtain ⟨pc,hpc,hpend⟩ := ht
    cases hpc
    obtain ⟨rfl,rfl⟩ := Prod.mk.inj (Option.some.inj hpend)
    exact ⟨rfl, ⟨n, hn, hadmin⟩, rfl, rfl⟩
  | checked epoch hadmin => exact (hkeep hadmin rfl (.inl rfl)).elim
  | cancel kind hkind hadmin => exact (hkeep hadmin rfl (.inl rfl)).elim
  | lock kind n hn hadmin | captureFails kind n hn hadmin =>
    exact (hkeep hadmin rfl (.inl rfl)).elim
  | captureClear n hn hadmin => exact (hkeep hadmin rfl (.inl rfl)).elim
  | release kind data walOffset n hn hadmin | released kind data walOffset n hn hadmin =>
    exact (hkeep hadmin rfl (.inr rfl)).elim
  | writeTemp kind data walOffset entries bytes hadmin =>
    exact (hkeep hadmin rfl (.inr rfl)).elim
  | writeTempFails l kind data walOffset temp hadmin => exact (hkeep hadmin rfl (.inl rfl)).elim
  | syncTemp kind data walOffset hadmin => exact (hkeep hadmin rfl (.inr rfl)).elim
  | rename kind data walOffset hadmin | syncDirectory kind data walOffset hadmin
  | verifyFails kind data walOffset hadmin => exact (hkeep hadmin rfl (.inl rfl)).elim
  | verified kind data walOffset hadmin =>
    refine (hkeep hadmin rfl (.inl ?_)).elim
    cases kind <;> rfl
  | rotate kind wal hadmin => exact (hkeep hadmin rfl (.inl rfl)).elim
  | syncTruncation kind wal hadmin =>
    refine (hkeep hadmin rfl (.inl ?_)).elim
    cases kind <;> rfl
  | rotateFails kind hadmin | removeSnapshot kind hadmin | removeTemp kind hadmin
  | syncRemoval kind hadmin | reset kind hadmin => exact (hkeep hadmin rfl (.inl rfl)).elim
  | unlock kind failed n hn hadmin => exact (hkeep hadmin rfl (.inl rfl)).elim
  | fault call hadmin => exact (hkeep hadmin rfl (.inl rfl)).elim
  | _ => exact absurd ht hs

/-- Behind `SaveVerified`'s writing, the temporary file is the encoding of the copy. -/
def TempInv (host : ByteOrder) (s : KVStore) : Prop :=
  ∀ kind stage data walOffset, s.admin = some ⟨kind, .saving stage data walOffset⟩ →
    stage = .tempWritten ∨ stage = .tempSynced →
    ∃ entries, Enumerates entries data ∧ entries.length < 2^32 ∧
      s.temp = some (snapshotBytes host entries walOffset)

theorem TempInv.step (h : TempInv host s) (hsteps : KVStore.Steps host hash s l t) :
    TempInv host t := by
  intro kind stage data walOffset ht hstage
  cases hsteps with
  | writeTemp kind data walOffset entries bytes hadmin henum hsave =>
    cases ht
    obtain ⟨rfl,hn⟩ := saveBytes_eq hsave
    exact ⟨entries, henum, hn, rfl⟩
  | syncTemp kind data walOffset hadmin =>
    cases ht
    exact h _ _ _ _ hadmin (.inl rfl)
  | rename | syncDirectory | captureSave | captureCompact | released =>
    cases ht
    rcases hstage with hstage | hstage <;> cases hstage
  | verified kind =>
    cases kind <;> cases ht
  | syncTruncation kind =>
    cases kind <;> cases ht
  | enter | cancelled | checked | cancel | lock | captureFails | captureCheckpoint | captureClear
  | release | writeTempFails | verifyFails | rotate | rotateFails | removeSnapshot | removeTemp
  | syncRemoval | reset | unlock | leave | fault | enterCheckpoint => cases ht
  | _ => exact h kind stage data walOffset ht hstage

/-! ### Generations of the log -/

/-- A store, with the map it had when the current generation of its log began. -/
structure GenStore where
  store : KVStore
  genMap : Store

/-- The step in which the holder of all locks truncates the log. -/
def KVStore.rotated (s t : KVStore) : Bool :=
  match s.admin, t.admin with
  | some ⟨kind, .rotating⟩, some ⟨kind', .truncated⟩ => kind == kind'
  | _, _ => false

def GenStore.step (host : ByteOrder) (hash : Bytes → ℕ) (h : GenStore) (l : Label) :
    Option GenStore :=
  (h.store.step host hash l).map fun t =>
    ⟨t, if h.store.rotated t then h.store.collectData else h.genMap⟩

/-- The files of any number of crashed sessions, and the map at the beginning of the log. -/
inductive GenReachable (host : ByteOrder) (hash : Bytes → ℕ) : Disk → Store → Prop where
  | empty (snapshot temp : Option Bytes) (hsnap : snapshot = none ∨ snapshot = some []) :
      GenReachable host hash ⟨[], snapshot, temp⟩ ∅
  | v2 (ops : List WalRecord) (temp : Option Bytes) (hne : ops ≠ [])
      (hok : ∀ op ∈ ops, RecordOk false op)
      (hroom : (framesFrom host false 1 ops).length ≤ kMaxStreamoff) :
      GenReachable host hash ⟨framesFrom host false 1 ops, none, temp⟩ ∅
  | crash {disk disk' : Disk} {g : Store} (policy : DurabilityPolicy) (maxBatch : ℕ)
      (labels : List Label) {s : KVStore} {h : GenStore} (hdisk : GenReachable host hash disk g)
      (hopen : openStore host hash disk policy maxBatch = .ok s)
      (hlabels : ∀ l ∈ labels, l.recoverable = true)
      (hrun : run (GenStore.step host hash) ⟨s,g⟩ labels = some h) (hcrash : h.store.Crash disk') :
      GenReachable host hash disk' h.genMap

theorem KVStore.rotated_iff : s.rotated t = true ↔ s.Rotates t := by
  unfold rotated Rotates
  split
  · rename_i kind kind' hs ht
    rw [hs, ht, beq_iff_eq]
    constructor
    · rintro rfl
      exact ⟨kind, rfl, rfl⟩
    · rintro ⟨k,hk,hk'⟩
      cases hk
      cases hk'
      rfl
  · rename_i hno
    constructor
    · rintro ⟨⟩
    · rintro ⟨kind,hs,ht⟩
      exact absurd ht (hno kind kind hs)

/-- A session with the map at the beginning of its log. The log leads from there to the settled
map, and its first bytes lead to the copy that a checkpoint or a save has made. -/
structure Dated (host : ByteOrder) (hash : Bytes → ℕ) (m : Store) (h : GenStore)
    (base : WriteAheadLog) (before : List WalRecord) (settled : List Request) : Prop
    extends Holding host hash m h.store base before settled True where
  gen : applyOps before h.genMap = applyOps (settled.map Request.op) m
  copy : ∀ kind data walOffset, h.store.Pending kind data walOffset → FieldsFit data ∧
    (kind ≠ .compactPersistence → walOffset ≤ base.file.length ∧
      ∃ r, replayFromDetailed host (base.file.take walOffset) 0 h.genMap = .ok (r,data))

namespace Dated

variable {m : Store} {h : GenStore} {base : WriteAheadLog} {before : List WalRecord}
  {settled : List Request}

/-- The log from its beginning. -/
theorem replay (hd : Dated host hash m h base before settled) :
    ∃ r, replayFromDetailed host base.file 0 h.genMap =
      .ok (r, applyOps (settled.map Request.op) m) := by
  obtain ⟨p,r,-,hr,-⟩ := hd.ground.inv.agree.fileShape.replay h.genMap
  rw [hd.gen] at hr
  exact ⟨r, hr⟩

/-- A copy that is being made. -/
theorem capture (hd : Dated host hash m h base before settled)
    (hc : h.store.Captures kind data walOffset) :
    h.store.wal.outstanding = [] ∧ FieldsFit data ∧
    (kind ≠ .compactPersistence → walOffset ≤ base.file.length ∧
      ∃ r, replayFromDetailed host (base.file.take walOffset) 0 h.genMap = .ok (r,data)) := by
  obtain ⟨n,hn,hadmin⟩ := hc.admin
  obtain ⟨hidle,hbase,-,hdata⟩ := hd.quiet (hd.all_locked hadmin fun i => i.isLt.trans_le hn)
  have hcopy := hc.data.trans hdata
  refine ⟨hidle, hcopy ▸ hd.fit, fun hkind => ?_⟩
  have hoff := hc.offset
  rw [if_neg hkind, ← hbase] at hoff
  subst hoff
  rw [List.take_length, hcopy]
  exact ⟨le_rfl, hd.replay⟩

theorem step {t : GenStore} (hd : Dated host hash m h base before settled)
    (hl : l.recoverable = true) (hstep : h.step host hash l = some t) :
    ∃ base before settled, Dated host hash m t base before settled := by
  obtain ⟨u,hu,rfl⟩ := Option.map_eq_some_iff.mp hstep
  have hsteps := KVStore.steps_of_step hu
  have hcopy (kind : AdminKind) (data : Store) (walOffset : ℕ)
      (hpend : u.Pending kind data walOffset) : FieldsFit data ∧
      (kind ≠ .compactPersistence → walOffset ≤ base.file.length ∧
        ∃ r, replayFromDetailed host (base.file.take walOffset) 0 h.genMap = .ok (r,data)) := by
    by_cases hold : h.store.Pending kind data walOffset
    · exact hd.copy kind data walOffset hold
    · exact (hd.capture (hsteps.captures hold hpend).2).2
  rcases hd.toHolding.step hl hsteps fun _ _ _ _ => trivial with
    ⟨hrot,ht⟩ | ⟨batch,n,hwrite,-,hbusy,-,ht⟩ | ⟨kind,wal,hadmin,hwal,rfl,ht⟩
  · rw [← KVStore.rotated_iff, Bool.not_eq_true] at hrot
    rw [hrot, if_neg Bool.false_ne_true]
    exact ⟨base, before, settled, ht, hd.gen, hcopy⟩
  · have hrot : h.store.rotated u = false := by
      rw [← Bool.not_eq_true, KVStore.rotated_iff]
      rintro ⟨kind,hadmin,-⟩
      exact hbusy (hd.quiet (hd.all_locked hadmin fun i => trivial)).1
    rw [hrot, if_neg Bool.false_ne_true]
    refine ⟨_, _, _, ht, ?_, fun kind data walOffset hpend => ?_⟩
    · rw [applyOps_append, hd.gen, List.map_append, applyOps_append]
    · -- the batch goes behind the bytes that the copy covers
      obtain ⟨hfit,hreplay⟩ := hcopy kind data walOffset hpend
      refine ⟨hfit, fun hkind => ?_⟩
      obtain ⟨hle,r,hr⟩ := hreplay hkind
      have hfile : (base.appended host (batch.map Request.op)).file =
          base.file ++ (base.headerBytes ++
            framesFrom host base.portable base.nextSequence (batch.map Request.op)) := rfl
      rw [hfile, List.take_append_of_le_length hle, List.length_append]
      exact ⟨Nat.le_add_right_of_le hle, r, hr⟩
  · have hrot : h.store.rotated { h.store with wal := wal, admin := some ⟨kind, .truncated⟩ } =
        true :=
      KVStore.rotated_iff.mpr ⟨kind, hadmin, rfl⟩
    rw [if_pos hrot]
    refine ⟨_, _, _, ht, ?_, ?_⟩
    · exact (hd.quiet (hd.all_locked hadmin fun i => trivial)).2.2.2
    · rintro kind' data walOffset ⟨pc,hpc,hpend⟩
      cases hpc
      cases hpend

/-- The files that a crash leaves lead from the same map to what they recover to. -/
theorem crash (hd : Dated host hash m h base before settled) {disk : Disk}
    (hcrash : h.store.Crash disk) :
    ∃ m', DiskHolds host disk m' True ∧
      ∃ r, replayFromDetailed host disk.wal 0 h.genMap = .ok (r,m') := by
  obtain ⟨hfile,hsnap⟩ := hcrash
  obtain ⟨extra,-,hshape,hres⟩ := hd.ground.crash hfile
  have hheld := hd.held fun _ _ _ => trivial
  refine ⟨_, hd.left hshape hres hfile.2 (hsnap ▸ hheld), ?_⟩
  obtain ⟨p,r,-,hr,-⟩ := hshape.replay h.genMap
  rw [applyOps_append, hd.gen, ← applyOps_append, ← List.map_append] at hr
  exact ⟨r, hr⟩

end Dated

/-- From the start of a session to any of its states. -/
theorem dated_of_run {disk : Disk} {m g : Store} {h : GenStore}
    (hdisk : DiskHolds host disk m True)
    (hreplay : ∃ r, replayFromDetailed host disk.wal 0 g = .ok (r,m)) {policy : DurabilityPolicy}
    {maxBatch : ℕ} (hopen : openStore host hash disk policy maxBatch = .ok s) {labels : List Label}
    (hlabels : ∀ l ∈ labels, l.recoverable = true)
    (hrun : run (GenStore.step host hash) ⟨s,g⟩ labels = some h) :
    ∃ base before settled, Dated host hash m h base before settled := by
  obtain ⟨wal,ops,hopen',-,hs⟩ := hdisk.opens hash policy (openStore_maxBatch hopen)
  obtain rfl := Except.ok.inj (hopen.symm.trans hopen')
  have hfile : wal.file = disk.wal := by
    obtain ⟨wal',m',hwal,heq⟩ := openStore_eq hopen
    have hsame : wal = wal' := congrArg (fun s => s.wal.wal) heq
    rw [hsame]
    exact (openWal_fields hwal).1
  refine run_invariant
    (P := fun h => ∃ base before settled, Dated host hash m h base before settled)
    ?_ hlabels hrun ⟨wal, ops, [], hs, ?_, ?_⟩
  · rintro h l t hl ⟨base,before,settled,hd⟩ hstep
    exact hd.step hl hstep
  · obtain ⟨r,hr⟩ := hreplay
    obtain ⟨p,r',-,hr',-⟩ := hs.ground.inv.agree.fileShape.replay g
    rw [hfile, hr] at hr'
    exact (Prod.mk.inj (Except.ok.inj hr')).2.symm
  · rintro kind data walOffset ⟨pc,hpc,-⟩
    cases hpc

theorem GenReachable.holds {disk : Disk} {g : Store} (h : GenReachable host hash disk g) :
    ∃ m, DiskHolds host disk m True ∧ ∃ r, replayFromDetailed host disk.wal 0 g = .ok (r,m) := by
  induction h with
  | empty snapshot temp hsnap =>
    exact ⟨∅, diskHolds_empty hsnap temp, _, replay_empty host 0 ∅ (Nat.zero_le _)⟩
  | v2 ops temp hne hok hroom =>
    have hlog : WellFormedLog host _ ops := .v2 ops hne hok
    obtain ⟨r,hr,-⟩ := hlog.replay ∅
    exact ⟨applyOps ops ∅, diskHolds_v2 hne hok hroom temp, r, hr⟩
  | crash policy maxBatch labels hdisk hopen hlabels hrun hcrash ih =>
    obtain ⟨m,hm,hreplay⟩ := ih
    obtain ⟨base,before,settled,hd⟩ := dated_of_run hm hreplay hopen hlabels hrun
    exact hd.crash hcrash

theorem GenStore.run_store {h h' : GenStore} {ls : List Label}
    (hrun : run (GenStore.step host hash) h ls = some h') :
    run (KVStore.step host hash) h.store ls = some h'.store := by
  induction ls generalizing h with
  | nil =>
    obtain rfl := Option.some.inj hrun
    rfl
  | cons l ls ih =>
    obtain ⟨u,hu,hrun⟩ := run_cons_eq_some.mp hrun
    obtain ⟨t,ht,rfl⟩ := Option.map_eq_some_iff.mp hu
    rw [run_cons, ht, Option.bind_some]
    exact ih hrun

/-- The copy behind a publication. -/
theorem capture_of_pending {u : KVStore} (hu : Running hash u) {ys : List Label}
    (hrun : run (KVStore.step host hash) u ys = some s) (hidle : u.copyless = true)
    (hpend : s.Pending kind data walOffset) :
    ∃ ys₁ ys₂ c c', ys = ys₁ ++ .admin :: ys₂ ∧ run (KVStore.step host hash) u ys₁ = some c ∧
      c.Captures kind data walOffset ∧ (∀ i, c.slots i = .admin) ∧ c.wal.outstanding = [] ∧
      c.step host hash .admin = some c' ∧
      Along (KVStore.step host hash) (fun v _ => v.Pending kind data walOffset) c' ys₂ ∧
      run (KVStore.step host hash) c' ys₂ = some s := by
  obtain ⟨xs,l,ys₂,c,c',rfl,hc,hnot,hstep,hc',halong,hrest⟩ :=
    run_last_entry (Q := fun s => s.Pending kind data walOffset) hrun
      (KVStore.not_pending_of_copyless hidle) hpend
  obtain ⟨rfl,hcap⟩ := (KVStore.steps_of_step hstep).captures hnot hc'
  have hrc : Running hash c := run_invariant (A := fun _ => True)
    (fun _ _ _ _ h hs => h.step (KVStore.steps_of_step hs)) (fun _ _ => trivial) hc hu
  obtain ⟨n,hn,hadmin⟩ := hcap.admin
  have hall (i : Shard) : c.slots i = .admin :=
    (hrc.lock i).mpr ⟨_, hadmin, i.isLt.trans_le hn⟩
  exact ⟨xs, ys₂, c, c', rfl, hc, hcap, hall, hrc.own.outstanding_eq_nil hall, hstep, halong, hrest⟩

/-- Snapshots are published in the order of their copies, and each is a consistent cut. A store
is opened on any files, and after any run is about to rename a copy into place. The temporary
file is the encoding of the copy. From any earlier moment at which nobody had a copy (another one
had just been renamed, or the call that made it had returned) the copy was made behind that
moment, with all shards locked and no append under way, and has been in the hands of its call
ever since. If no append has failed and the log is not removed, the copy of a checkpoint or a
save is what the first bytes of the log make of the map at the beginning of its generation. -/
theorem snapshots_are_ordered_cuts {disk : Disk} {policy : DurabilityPolicy} {maxBatch : ℕ}
    {s₀ : KVStore} (hopen : openStore host hash disk policy maxBatch = .ok s₀) {ls : List Label}
    (hrun : run (KVStore.step host hash) s₀ ls = some s)
    (hpub : s.admin = some ⟨kind, .saving .tempSynced data walOffset⟩) :
    (∃ entries, Enumerates entries data ∧ s.temp = some (snapshotBytes host entries walOffset)) ∧
    (∀ xs ys u, ls = xs ++ ys → run (KVStore.step host hash) s₀ xs = some u → u.copyless = true →
      ∃ ys₁ ys₂ c c', ys = ys₁ ++ .admin :: ys₂ ∧ run (KVStore.step host hash) u ys₁ = some c ∧
        c.Captures kind data walOffset ∧ (∀ i, c.slots i = .admin) ∧ c.wal.outstanding = [] ∧
        c.step host hash .admin = some c' ∧
        Along (KVStore.step host hash) (fun v _ => v.Pending kind data walOffset) c' ys₂ ∧
        run (KVStore.step host hash) c' ys₂ = some s) ∧
    (∀ g h, GenReachable host hash disk g → (∀ l ∈ ls, l.recoverable = true) →
      run (GenStore.step host hash) ⟨s₀,g⟩ ls = some h → kind ≠ .compactPersistence →
      (∃ n, loadSnapshot host s.temp ∅ = .ok (⟨true, n, walOffset⟩, data)) ∧
      ∃ r, replayFromDetailed host (s.wal.wal.file.take walOffset) 0 h.genMap = .ok (r,data)) := by
  have hpend : s.Pending kind data walOffset := ⟨_, hpub, rfl⟩
  have htemp : TempInv host s := by
    refine run_invariant (A := fun _ => True)
      (fun _ _ _ _ h hs => h.step (KVStore.steps_of_step hs)) (fun _ _ => trivial) hrun ?_
    obtain ⟨wal,m,-,rfl⟩ := openStore_eq hopen
    rintro kind stage data walOffset ⟨⟩
  obtain ⟨entries,henum,hfew,hbytes⟩ := htemp _ _ _ _ hpub (.inr rfl)
  refine ⟨⟨entries, henum, hbytes⟩, ?_, ?_⟩
  · rintro xs ys u rfl hu hidle
    rw [run_append, hu, Option.bind_some] at hrun
    exact capture_of_pending (.run hopen hu) hrun hidle hpend
  · intro g h hdisk hlabels hgen hkind
    obtain ⟨m,hm,hreplay⟩ := hdisk.holds
    obtain ⟨base,before,settled,hd⟩ := dated_of_run hm hreplay hopen hlabels hgen
    obtain rfl : h.store = s := Option.some.inj ((GenStore.run_store hgen).symm.trans hrun)
    obtain ⟨hfit,hcut⟩ := hd.copy kind data walOffset hpend
    obtain ⟨hle,r,hr⟩ := hcut hkind
    have hspan := hd.ground.span.1
    have hmax : walOffset < 2^64 := by
      have := hspan.length_le.trans hd.ground.log.room
      simp only [kMaxStreamoff] at this
      omega
    refine ⟨⟨entries.length, ?_⟩, r, ?_⟩
    · rw [hbytes]
      exact loadSnapshot_snapshotBytes henum hfit hfew hmax ∅
    · obtain ⟨rest,hrest⟩ := hspan
      rw [← hrest, List.take_append_of_le_length hle]
      exact hr

/-- Two calls of `Set`. -/
def twoSets : List Label :=
  writeCall (.set [107] [118]) 0 ++ [.caller 0] ++ writeCall (.set [108] [119]) 1 ++ [.caller 0]

/-- A `SaveSnapshot` up to its rename. -/
def savePair : List Label :=
  [.enter .saveSnapshot] ++ List.replicate (kShardCount+2) .admin ++
  [.writeTemp [([108],[119]),([107],[118])], .admin]

def pairCopy : Store := applyOps [.set [107] [118], .set [108] [119]] ∅

/-- The copy is made behind the calls and has both records. -/
theorem ordered_cut_of_saved_pair :
    ∃ (u s : KVStore) (h : GenStore),
      run (KVStore.step .little oneShard) (KVStore.start oneShard blankWal ∅ none none)
        twoSets = some u ∧ run (KVStore.step .little oneShard) u savePair = some s ∧ h.store = s ∧
      s.admin = some ⟨.saveSnapshot, .saving .tempSynced pairCopy 78⟩ ∧
      (∃ entries, Enumerates entries pairCopy ∧
        s.temp = some (snapshotBytes .little entries 78)) ∧
      (∃ ys₁ ys₂ c, savePair = ys₁ ++ .admin :: ys₂ ∧
        run (KVStore.step .little oneShard) u ys₁ = some c ∧
        c.Captures .saveSnapshot pairCopy 78 ∧ (∀ i, c.slots i = .admin) ∧
        c.wal.outstanding = []) ∧
      ∃ r, replayFromDetailed .little (s.wal.wal.file.take 78) 0 h.genMap = .ok (r,pairCopy) := by
  have hsets : ((run (GenStore.step .little oneShard)
      ⟨KVStore.start oneShard blankWal ∅ none none, ∅⟩ twoSets).any fun g => g.store.copyless) =
      true := by decide +kernel
  have hrun : ((run (GenStore.step .little oneShard)
      ⟨KVStore.start oneShard blankWal ∅ none none, ∅⟩ (twoSets ++ savePair)).any fun h =>
        decide (h.store.admin = some ⟨.saveSnapshot, .saving .tempSynced pairCopy 78⟩)) =
      true := by decide +kernel
  obtain ⟨g,hsets,hidle⟩ := (Option.any_eq_true _ _).mp hsets
  obtain ⟨h,hboth,hadmin⟩ := (Option.any_eq_true _ _).mp hrun
  have hsave := hboth
  rw [run_append, hsets, Option.bind_some] at hsave
  have hu := GenStore.run_store hsets
  obtain ⟨htemp,horder,hcut⟩ := snapshots_are_ordered_cuts openStore_blank
    (GenStore.run_store hboth) (of_decide_eq_true hadmin)
  obtain ⟨ys₁,ys₂,c,c',hys,hc,hcap,hall,hout,-⟩ := horder twoSets savePair g.store rfl hu hidle
  obtain ⟨-,r,hr⟩ := hcut ∅ h (.empty none none (.inl rfl)) (by decide +kernel) hboth (by decide)
  exact ⟨g.store, h.store, h, hu, GenStore.run_store hsave, rfl, of_decide_eq_true hadmin, htemp,
    ⟨ys₁, ys₂, c, hys, hc, hcap, hall, hout⟩, r, hr⟩

end ConcurrentKV

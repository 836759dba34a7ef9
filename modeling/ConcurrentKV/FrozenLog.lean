import ConcurrentKV.CrashRecovery
import ConcurrentKV.KVFailure

/-! A session in which an append fails behind its write: the frame is in the file, the call has
thrown and the map is unchanged. From then on the log stands still, and what the snapshot's
path holds recovers to the map with or without the frame. -/
namespace ConcurrentKV
open ByteCodec OpLog Sharding Transition

/-- A session, with a note whether an append has failed since the log was last empty. -/
structure History where
  store : KVStore
  stale : Bool

/-- The operations a client issues. -/
def Label.issues : Label → List WalRecord
  | .call op => [op]
  | _ => []

def Label.isFailure : Label → Bool
  | .wal (.fail _ _) => true
  | _ => false

namespace KVStore

/-- A compaction has published its copy and not truncated the log. -/
def exposed (s : KVStore) : Bool := s.admin.any AdminCall.exposed

/-- The step makes the call that holds `snapshot_mutex_` throw. -/
def interrupts (host : ByteOrder) (s : KVStore) : Label → Bool
  | .adminFault => true
  | .admin => match s.admin with
    | some ⟨_, .saving .directorySynced data walOffset⟩ =>
      decide (verifySnapshot host s.snapshot data walOffset ≠ .ok true)
    | some ⟨_, .rotating⟩ => (s.wal.step host .clear).isNone
    | _ => false
  | _ => false

end KVStore

namespace History

def step (host : ByteOrder) (hash : Bytes → ℕ) (h : History) (l : Label) : Option History :=
  (h.store.step host hash l).map fun t =>
    ⟨t, if t.wal.wal.file = [] then false else h.stale || l.isFailure⟩

/-- Appends fail only behind their write; nobody else truncates the log, and there is no
`ClearPersistence`. -/
def failsLate (h : History) (l : Label) : Bool :=
  if l.isFailure then h.store.wal.job.any (fun job => job.phase = .flushed ∨ job.phase = .synced)
  else l.recoverable

/-- No exception interrupts a compaction that has published its copy over a log in which an
append has failed. -/
def calm (host : ByteOrder) (h : History) (l : Label) : Prop :=
  h.stale = true → h.store.exposed = true → h.store.interrupts host l = false

instance (host : ByteOrder) (h : History) (l : Label) : Decidable (h.calm host l) :=
  inferInstanceAs (Decidable (_ → _ → _))

theorem failsLate_fail {h : History} {n : ℕ} {e : WalError}
    (hlate : h.failsLate (.wal (.fail n e)) = true) :
    ∃ batch, h.store.wal.job = some ⟨batch, .flushed⟩ ∨
      h.store.wal.job = some ⟨batch, .synced⟩ := by
  obtain ⟨⟨batch,phase⟩,hjob,hphase⟩ := (Option.any_eq_true _ _).mp hlate
  refine ⟨batch, ?_⟩
  rcases of_decide_eq_true hphase with rfl | rfl
  · exact .inl hjob
  · exact .inr hjob

theorem recoverable_of_failsLate {h : History} {l : Label} (hl : l.isFailure = false)
    (hlate : h.failsLate l = true) : l.recoverable = true := by
  rwa [failsLate, if_neg (by simp [hl])] at hlate

end History

variable {host : ByteOrder} {hash : Bytes → ℕ} {m : Store} {s t : KVStore} {h h' : History}
  {issued : List WalRecord} {disk disk' : Disk} {l : Label}

/-! ### Where records come from -/

/-- Every operation in the store was issued. -/
structure Issued (issued : List WalRecord) (s : KVStore) : Prop where
  calling : ∀ op ∈ s.calling, op ∈ issued
  slots : ∀ i op pc, s.slots i = .writer ⟨op,pc⟩ → op ∈ issued
  history : ∀ r ∈ s.wal.history, r.op ∈ issued

namespace Issued

theorem start (wal : WriteAheadLog) (m : Store) (snapshot temp : Option Bytes) :
    Issued [] (KVStore.start hash wal m snapshot temp) where
  calling op hop := by simp [KVStore.start] at hop
  slots i op pc hi := by cases hi
  history r hr := by simp [KVStore.start, WalThreads.start] at hr

theorem mono (hi : Issued issued s) {more : List WalRecord} (hsub : ∀ op ∈ issued, op ∈ more) :
    Issued more s :=
  ⟨fun op hop => hsub op (hi.calling op hop), fun i op pc h => hsub op (hi.slots i op pc h),
    fun r hr => hsub _ (hi.history r hr)⟩

/-- A call's place is taken by itself or given up. -/
theorem update (hi : Issued issued s) {i : Shard} {slot : Slot}
    (hslot : ∀ op pc, slot = .writer ⟨op,pc⟩ → op ∈ issued) :
    ∀ j op pc, Function.update s.slots i slot j = .writer ⟨op,pc⟩ → op ∈ issued := by
  intro j op pc hj
  by_cases hji : j = i
  · subst hji
    rw [Function.update_self] at hj
    exact hslot op pc hj
  · rw [Function.update_of_ne hji] at hj
    exact hi.slots j op pc hj

theorem step (hi : Issued issued s) (hown : OwnInv hash s.wal s.slots)
    (hsteps : KVStore.Steps host hash s l t) : Issued (issued ++ l.issues) t := by
  have hle : Issued (issued ++ l.issues) s := hi.mono fun op hop => List.mem_append_left _ hop
  have hwal {w : WalLabel} {wal : WalThreads} (hw : s.wal.step host w = some wal) :
      ∀ r ∈ wal.history, r.op ∈ issued ++ l.issues := by
    intro r hr
    obtain ⟨new,hhist,hnew⟩ := WalThreads.step_history hw
    rw [hhist] at hr
    rcases List.mem_append.mp hr with hr | hr
    · exact hle.history r hr
    · exact hle.slots _ _ _ (hown.owner r (hnew r hr))
  have hfree {i : Shard} {keys : List Bytes} :
      ∀ j op pc, Function.update s.slots i (.readers keys) j = .writer ⟨op,pc⟩ →
        op ∈ issued ++ l.issues := hle.update (by simp)
  have hsame {i : Shard} {op : WalRecord} {pc pc' : WritePc} (hslot : s.slots i = .writer ⟨op,pc⟩) :
      ∀ j op' pc'', Function.update s.slots i (.writer ⟨op,pc'⟩) j = .writer ⟨op',pc''⟩ →
        op' ∈ issued ++ l.issues := by
    refine hle.update ?_
    rintro op' pc'' ⟨⟩
    exact hle.slots i _ pc hslot
  cases hsteps with
  | call op =>
    refine ⟨fun op' hop => ?_, hle.slots, hle.history⟩
    rcases List.mem_append.mp hop with hop | hop
    · exact hle.calling op' hop
    · exact List.mem_append_right _ hop
  | lockShard op hcall =>
    refine ⟨fun op' hop => hle.calling op' (List.mem_of_mem_erase hop), hle.update ?_, hle.history⟩
    rintro op' pc ⟨⟩
    exact hle.calling _ hcall
  | prepare i op wal hslot hw => exact ⟨hle.calling, hsame hslot, hwal hw⟩
  | acknowledge i op id hslot | mutate i op id erased hslot | count i op id erased hslot
  | schedule i op id erased hslot => exact ⟨hle.calling, hsame hslot, hle.history⟩
  | rethrow | ret | lockShared | get | release | unlock => exact ⟨hle.calling, hfree, hle.history⟩
  | lock => exact ⟨hle.calling, hle.update (by simp), hle.history⟩
  | wal w wal hprep hw => exact ⟨hle.calling, hle.slots, hwal hw⟩
  | rotate kind wal hadmin hw => exact ⟨hle.calling, hle.slots, hwal hw⟩
  | syncTruncation kind wal hadmin hw =>
    rcases hw with hw | ⟨rfl,-⟩
    · exact ⟨hle.calling, hle.slots, hwal hw⟩
    · exact ⟨hle.calling, hle.slots, hle.history⟩
  | _ => exact ⟨hle.calling, hle.slots, hle.history⟩

end Issued

/-! ### A session behind a failed append -/

/-- A map that startup may rebuild. -/
def Rebuilt (issued : List WalRecord) (m m' : Store) : Prop := ChangedBy issued m m' ∧ FieldsFit m'

/-- What holds in every session, whatever has failed. -/
structure Traced (hash : Bytes → ℕ) (issued : List WalRecord) (m : Store) (s : KVStore) : Prop where
  contained : Contained hash m s
  issued : Issued issued s
  sized : s.wal.Sized
  fit : FieldsFit m

/-- A session in which an append has failed. Its log stands still, and each copy that is or
will be published recovers to a map of issued operations. -/
structure Frozen (host : ByteOrder) (issued : List WalRecord) (m : Store) (h : History)
    (ops : List WalRecord) : Prop where
  failed : ∃ e, h.store.wal.Failed e
  shape : FileShape host h.store.wal.wal.file ops
  room : h.store.wal.wal.file.length ≤ kMaxStreamoff
  clean : h.stale = false → ops = []
  snap : SnapInv host (Rebuilt issued m) h.store.wal.wal.file ops h.store.admin h.store.snapshot
    h.store.temp h.store.unsynced

theorem FileShape.eq_nil {ops : List WalRecord} (h : FileShape host [] ops) : ops = [] := by
  have := h.length_le
  rw [List.length_nil] at this
  exact List.length_eq_zero_iff.mp (by omega)

namespace Traced

theorem step (hs : Traced hash issued m s) (hstep : s.step host hash l = some t) :
    Traced hash (issued ++ l.issues) m t := by
  have hsteps := KVStore.steps_of_step hstep
  refine ⟨hs.contained.step hstep, hs.issued.step hs.contained.shards.own hsteps, ?_, hs.fit⟩
  rcases (hsteps.effect hs.contained.lock).wal_cases with hwal | ⟨w,hwal⟩
  · rw [hwal]
    exact hs.sized
  · exact hs.sized.step hwal

/-- Whatever is replayed of the log, from the map of the start on. -/
theorem rebuilt (hs : Traced hash issued m s) {rs : List Request}
    (hrs : ∀ r ∈ rs, r ∈ s.wal.history) :
    Rebuilt issued m (applyOps (rs.map Request.op) m) := by
  have hmem {P : WalRecord → Prop} (hP : ∀ r ∈ s.wal.history, P r.op) :
      ∀ op ∈ rs.map Request.op, P op := by
    intro op hop
    obtain ⟨r,hr,rfl⟩ := List.mem_map.mp hop
    exact hP r (hrs r hr)
  exact ⟨changedBy_applyOps (hmem hs.issued.history) m, hs.fit.applyOps (hmem hs.sized.history)⟩

/-- A copy of the map, taken with all shards locked. -/
theorem copied (hs : Traced hash issued m s) {call : AdminCall} (hadmin : s.admin = some call)
    (hholds : ∀ i, call.holds i) : Rebuilt issued m s.collectData := by
  have hfree (i : Shard) : (s.slots i).isWriter = false := by
    rw [(hs.contained.lock i).mpr ⟨call, hadmin, hholds i⟩]
    rfl
  rw [KVStore.collectData, hs.contained.shards.collect_eq hfree]
  exact hs.rebuilt fun r hr => (WalThreads.mem_acked hr).1

end Traced

/-- A compaction that throws while its copy is exposed was interrupted by the step. -/
theorem KVStore.interrupts_of_throw (hstep : s.step host hash l = some t) {call : AdminCall}
    (hadmin : s.admin = some call) (hexp : call.exposed = true)
    (ht : t.admin = (s.throw call).admin) : s.interrupts host l = true := by
  have hat {kind : AdminKind} {pc : AdminPc} (hs : s.admin = some ⟨kind,pc⟩)
      (hpc : (⟨kind,pc⟩ : AdminCall).exposed = false) : False := by
    rw [hadmin] at hs
    obtain rfl := Option.some.inj hs
    rw [hpc] at hexp
    cases hexp
  obtain ⟨kind₀,pc₀⟩ := call
  cases KVStore.steps_of_step hstep with
  | fault => rfl
  | verifyFails kind data walOffset hs hver => simp [interrupts, hs, hver]
  | rotateFails kind hs =>
    simp only [interrupts, hs]
    cases hwal : s.wal.step host .clear with
    | none => rfl
    | some wal =>
      -- the log could have been truncated
      simp only [KVStore.step, adminStep, hs, hwal, Option.some.injEq] at hstep
      have hnext : some ⟨kind, .truncated⟩ = (s.throw ⟨kind, .rotating⟩).admin :=
        congrArg KVStore.admin hstep
      cases hnext
  | cancelled | leave | enter | enterCheckpoint | checked | cancel | lock | captureCheckpoint
  | captureSave | captureCompact | captureClear | release | released | writeTemp | syncTemp | rename
  | syncDirectory | rotate | removeSnapshot | removeTemp | syncRemoval => cases ht
  | verified kind | syncTruncation kind => cases kind <;> cases ht
  | captureFails kind n hn hs | writeTempFails _ kind _ _ _ hs | reset kind hs
  | unlock kind _ _ _ hs => exact (hat hs (by cases kind <;> rfl)).elim
  | _ =>
    -- the admin's call does not move
    refine (hat ht ?_).elim
    cases kind₀ <;> rfl

/-- A step that leaves the log's file alone. -/
theorem KVStore.Steps.file_eq {e : WalError} (hsteps : KVStore.Steps host hash s l t)
    (hfail : s.wal.Failed e) (hl : l.recoverable = true) (hrot : ¬s.Rotates t) :
    t.wal.wal.file = s.wal.wal.file := by
  cases hsteps with
  | prepare i op wal hslot hwal => exact hfail.file_eq hwal (by simp) (by simp)
  | wal w wal hprep hwal =>
    refine hfail.file_eq hwal ?_ ?_
    · rintro rfl
      cases hl
    · rintro n rfl
      cases hl
  | rotate kind wal hadmin hwal => exact absurd ⟨kind, hadmin, rfl⟩ hrot
  | syncTruncation kind wal hadmin hwal =>
    rcases hwal with hwal | ⟨rfl,-⟩
    · exact hfail.file_eq hwal (by simp) (by simp)
    · rfl
  | _ => rfl

theorem History.recoverable_of_failed {e : WalError} (hfail : h.store.wal.Failed e)
    (hlate : h.failsLate l = true) : l.recoverable = true := by
  cases hl : l.isFailure with
  | false => exact History.recoverable_of_failsLate hl hlate
  | true =>
    rw [History.failsLate, if_pos hl, Option.any_eq_true] at hlate
    obtain ⟨⟨batch,phase⟩,hjob,hphase⟩ := hlate
    rcases hfail.phase hjob with rfl | ⟨rfl,-⟩ <;> simp at hphase

theorem Label.isFailure_of_recoverable (hl : l.recoverable = true) : l.isFailure = false := by
  cases l with
  | wal w =>
    cases w with
    | fail n e => cases hl
    | _ => rfl
  | _ => rfl

/-- An exposed copy is left behind only when no append has failed since the log was empty. -/
theorem History.fresh_of_throw (hcalm : h.calm host l) (hstep : h.store.step host hash l = some t)
    {call : AdminCall} (hadmin : h.store.admin = some call) (hexp : call.exposed = true)
    (ht : t.admin = (h.store.throw call).admin) : h.stale = false := by
  rw [← Bool.not_eq_true]
  intro hstale
  have hexp' : h.store.exposed = true := by
    rw [KVStore.exposed, hadmin]
    exact hexp
  have hint := KVStore.interrupts_of_throw hstep hadmin hexp ht
  rw [hcalm hstale hexp'] at hint
  cases hint

namespace Frozen

variable {ops : List WalRecord}

theorem step (hf : Frozen host issued m h ops) (hs : Traced hash issued m h.store)
    (hlate : h.failsLate l = true) (hcalm : h.calm host l) (hstep : h.step host hash l = some h') :
    ∃ ops', Frozen host (issued ++ l.issues) m h' ops' := by
  obtain ⟨t,ht,rfl⟩ := Option.map_eq_some_iff.mp hstep
  obtain ⟨e,hfail⟩ := hf.failed
  have hl := History.recoverable_of_failed hfail hlate
  have hsteps := KVStore.steps_of_step ht
  have hfail' : t.wal.Failed e := by
    rcases (hsteps.effect hs.contained.lock).wal_cases with hwal | ⟨w,hwal⟩
    · rw [hwal]
      exact hfail
    · exact (hfail.step hwal).1
  have hmono : ∀ m', Rebuilt issued m m' → Rebuilt (issued ++ l.issues) m m' := fun m' hm' =>
    ⟨hm'.1.mono fun op hop => List.mem_append_left _ hop, hm'.2⟩
  by_cases hrot : h.store.Rotates t
  · obtain ⟨kind,wal,hadmin,hwal,rfl⟩ := hsteps.of_rotates hrot
    have hfile : wal.wal.file = [] := by
      cases WalThreads.steps_of_step hwal with
      | clear => rfl
    refine ⟨[], ⟨e,hfail'⟩, ?_, ?_, fun _ => rfl, ?_⟩
    · rw [hfile]
      exact .empty
    · rw [hfile]
      exact Nat.zero_le _
    · rw [hfile]
      exact (hf.snap.rotate hadmin).mono hmono
  · have hfile := hsteps.file_eq hfail hl hrot
    have hclear : l ≠ .enter .clearPersistence := by
      rintro rfl
      cases hl
    have hsnap := hf.snap.step hs.contained.path hf.room hsteps hclear hrot
      (fun kind n hadmin hn => by
        have hcopy := hs.copied hadmin fun i => i.isLt.trans_le hn
        refine ⟨hcopy, hcopy.2, fun off hoff => ?_⟩
        unfold WriteAheadLog.currentOffset at hoff
        split at hoff
        · exact (Except.ok.inj hoff).symm
        · cases hoff)
      (fun call hadmin hexp hthrow D _ _ => by
        rw [hf.clean (History.fresh_of_throw hcalm ht hadmin hexp hthrow)]
        exact fixed_nil D)
    refine ⟨ops, ⟨e,hfail'⟩, ?_, ?_, ?_, ?_⟩
    · rw [hfile]
      exact hf.shape
    · rw [hfile]
      exact hf.room
    · intro hstale
      dsimp only at hstale
      split at hstale
      · rename_i hnil
        rw [hfile] at hnil
        exact (hnil ▸ hf.shape).eq_nil
      · rw [Label.isFailure_of_recoverable hl, Bool.or_false] at hstale
        exact hf.clean hstale
    · rw [hfile]
      exact hsnap.mono hmono

/-- The files a crash leaves of such a session. -/
theorem crash (hf : Frozen host issued m h ops) (hpath : PathInv h.store.admin)
    (hcrash : h.store.Crash disk) (hcalm : h.stale = true → h.store.exposed = false) :
    ∃ m', DiskHolds host disk m' (h.stale = false) ∧ ChangedBy issued m m' := by
  obtain ⟨⟨⟨n,hwal⟩,hroom⟩,hsnap⟩ := hcrash
  obtain ⟨e,hfail⟩ := hf.failed
  have hidle : h.store.wal.inProgress = [] := by
    unfold WalThreads.inProgress
    split
    · rename_i hjob
      rcases hfail.phase hjob with hp | ⟨hp,-⟩ <;> cases hp
    · rename_i hjob
      rcases hfail.phase hjob with hp | ⟨hp,-⟩ <;> cases hp
    · rfl
  rw [hidle, List.take_nil, List.append_nil] at hwal
  have hclean (call : AdminCall) (hadmin : h.store.admin = some call) (hexp : call.exposed = true) :
      h.stale = false := by
    rw [← Bool.not_eq_true]
    intro hstale
    have hno := hcalm hstale
    rw [KVStore.exposed, hadmin] at hno
    rw [show call.exposed = false from hno] at hexp
    cases hexp
  obtain ⟨m',hm',hcov⟩ := hf.snap.held hpath hf.room fun call hadmin hexp D _ _ => by
    rw [hf.clean (hclean call hadmin hexp)]
    exact fixed_nil D
  refine ⟨m', ⟨hroom, hm'.2, ops, hwal ▸ hf.shape, ?_, ?_⟩, hm'.1⟩
  · rw [hsnap, hwal]
    exact hcov
  · intro hstale
    rw [hf.clean hstale]
    exact fixed_nil m'

end Frozen

/-! ### A session until an append fails -/

namespace Holding

variable {base : WriteAheadLog} {before : List WalRecord} {settled : List Request}
  {fresh fresh' : Prop}

/-- An empty log changes no map. -/
theorem refresh (hh : Holding host hash m s base before settled fresh)
    (himp : fresh' → fresh ∨ s.wal.wal.file = []) :
    Holding host hash m s base before settled fresh' := by
  refine ⟨hh.toSession, hh.snap, fun hfresh => ?_, hh.fit⟩
  rcases himp hfresh with hfresh | hnil
  · exact hh.fixed hfresh
  · have hbase : base.file = [] := List.prefix_nil.mp (hnil ▸ hh.ground.span.1)
    have hshape := hh.ground.inv.agree.fileShape
    rw [hbase] at hshape
    rw [hshape.eq_nil]
    exact fixed_nil _

/-- The append of a batch fails behind its write. -/
theorem freeze (hh : Holding host hash m h.store base before settled fresh)
    (hs : Traced hash issued m h.store) {n : ℕ} {e : WalError}
    (hlate : h.failsLate (.wal (.fail n e)) = true)
    (hstep : h.step host hash (.wal (.fail n e)) = some h') :
    ∃ ops, Frozen host issued m h' ops := by
  obtain ⟨t,ht,rfl⟩ := Option.map_eq_some_iff.mp hstep
  obtain ⟨wal,hwal,rfl⟩ := Option.map_eq_some_iff.mp ht
  obtain ⟨hfail,-,-⟩ := hs.contained.ack.fail hwal
  have hshape := hh.ground.log.fileShape
  have hroom := hh.ground.log.room
  have hhist := hh.ground.history_eq
  have hg := hh.ground.grounded
  have hsettled : ∀ r ∈ settled, r ∈ h.store.wal.history := by
    rw [hhist]
    exact fun r => List.mem_append_left _
  -- the frames are in the file, and the failed job leaves the file as it is
  have hdone {ops : List WalRecord} (hfile : wal.wal.file = h.store.wal.wal.file)
      (hops : FileShape host h.store.wal.wal.file ops)
      (hsnap : SnapInv host (Rebuilt issued m) h.store.wal.wal.file ops h.store.admin
        h.store.snapshot h.store.temp h.store.unsynced) :
      ∃ ops, Frozen host issued m ⟨{ h.store with wal := wal },
        if wal.wal.file = [] then false else h.stale || true⟩ ops := by
    refine ⟨ops, ⟨e,hfail⟩, ?_, ?_, ?_, ?_⟩
    · rw [hfile]
      exact hops
    · rw [hfile]
      exact hroom
    · intro hstale
      dsimp only at hstale
      split at hstale
      · rename_i hnil
        rw [hfile] at hnil
        exact (hnil ▸ hops).eq_nil
      · rw [Bool.or_true] at hstale
        cases hstale
    · rw [hfile]
      exact hsnap
  obtain ⟨batch,hjob | hjob⟩ := History.failsLate_fail hlate
  · simp only [WalThreads.step, hjob, Option.some.injEq] at hwal
    subst hwal
    simp only [Grounded, hjob] at hg
    obtain ⟨hd,hobj,hhist'⟩ := hg
    have hbusy : h.store.wal.outstanding ≠ [] := by
      obtain ⟨r,hr⟩ := List.exists_mem_of_ne_nil _ hd.limits.ne_nil
      exact List.ne_nil_of_mem (by simp [WalThreads.outstanding, hjob, hr] : r ∈ _)
    have hun : h.store.wal.unsettled = batch := by simp [WalThreads.unsettled, hjob]
    rw [hun] at hshape
    refine hdone (WalThreads.failJob_file batch e) hshape ?_
    rw [show h.store.wal.wal.file = (base.appended host (batch.map Request.op)).file by rw [hobj]]
    refine hh.snap.grow hh.path ?_ (fun W j => hd.resumes) (hh.not_compacting hbusy)
    rintro m' rfl
    rw [← applyOps_append, ← List.map_append]
    refine hs.rebuilt fun r hr => ?_
    rw [hhist']
    exact hr
  · simp only [WalThreads.step, hjob, Option.some.injEq] at hwal
    subst hwal
    simp only [Grounded, hjob] at hg
    obtain ⟨-,rfl,-⟩ := hg
    have hun : h.store.wal.unsettled = [] := by simp [WalThreads.unsettled, hjob]
    rw [hun, List.map_nil, List.append_nil] at hshape
    refine hdone (WalThreads.failJob_file batch e) hshape (hh.snap.mono ?_)
    rintro m' rfl
    exact hs.rebuilt hsettled

/-- One step of a session without a failed append so far. -/
theorem next (hh : Holding host hash m h.store base before settled (h.stale = false))
    (hs : Traced hash issued m h.store) (hlate : h.failsLate l = true) (hcalm : h.calm host l)
    (hstep : h.step host hash l = some h') :
    (∃ base before settled, Holding host hash m h'.store base before settled (h'.stale = false)) ∨
      ∃ ops, Frozen host (issued ++ l.issues) m h' ops := by
  by_cases hl : l.recoverable = true
  · left
    obtain ⟨t,ht,rfl⟩ := Option.map_eq_some_iff.mp hstep
    have hstale (hnew : (if t.wal.wal.file = [] then false else h.stale || l.isFailure) = false) :
        h.stale = false ∨ t.wal.wal.file = [] := by
      split at hnew
      · exact .inr ‹_›
      · rw [Label.isFailure_of_recoverable hl, Bool.or_false] at hnew
        exact .inl hnew
    rcases hh.step hl (KVStore.steps_of_step ht)
      (fun call hadmin hexp hthrow => History.fresh_of_throw hcalm ht hadmin hexp hthrow) with
      ⟨-,hh'⟩ | ⟨batch,n,-,-,-,-,hh'⟩ | ⟨kind,wal,-,-,-,hh'⟩
    · exact ⟨_, _, _, hh'.refresh hstale⟩
    · exact ⟨_, _, _, hh'.refresh hstale⟩
    · exact ⟨_, _, _, hh'.refresh fun _ => .inl trivial⟩
  · right
    have hl' : l.isFailure = true := by
      rw [← Bool.not_eq_false]
      exact fun hf => hl (History.recoverable_of_failsLate hf hlate)
    obtain ⟨n,e,rfl⟩ : ∃ n e, l = .wal (.fail n e) := by
      unfold Label.isFailure at hl'
      split at hl'
      · exact ⟨_, _, rfl⟩
      · cases hl'
    obtain ⟨ops,hf⟩ := hh.freeze hs hlate hstep
    refine ⟨ops, ?_⟩
    rw [show Label.issues (.wal (.fail n e)) = [] from rfl, List.append_nil]
    exact hf

end Holding

end ConcurrentKV

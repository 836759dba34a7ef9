import ConcurrentKV.KVHolding
import ConcurrentKV.WalFailure

/-! What every run of a store keeps, whatever fails in it: who has which lock and which append.
When all shards are locked, nobody has anything to write. -/
namespace ConcurrentKV
open ByteCodec OpLog Sharding Transition

/-- `Clear` and `TruncateTo`. -/
def WalLabel.cutsFile : WalLabel → Bool
  | .clear | .truncateTo _ => true
  | _ => false

namespace WalThreads

/-- Nobody has anything to write. -/
structure Quiet (s : WalThreads) : Prop where
  prepared : s.prepared = []
  queue : s.queue = []
  job : s.job = none ∨ ∃ error, s.job = some ⟨[], .completing error⟩

/-- A batch has requests until they are completed. -/
structure BatchInv (s : WalThreads) : Prop where
  maxBatch : 1 ≤ s.wal.maxBatch
  batch : ∀ phase, s.job = some ⟨[],phase⟩ → ∃ error, phase = .completing error

variable {host : ByteOrder} {s t : WalThreads}

theorem Quiet.job_eq (h : Quiet s) {batch : List Request} {phase : Phase}
    (hjob : s.job = some ⟨batch, phase⟩) : batch = [] ∧ ∃ error, phase = .completing error := by
  rcases h.job with hj | ⟨error,hj⟩
  · rw [hj] at hjob
    cases hjob
  · rw [hj] at hjob
    cases hjob
    exact ⟨rfl, error, rfl⟩

/-- Until a call prepares a frame, only the calls that cut the file change it. -/
theorem Quiet.step {l : WalLabel} (h : Quiet s) (hl : ∀ op, l ≠ .prepare op)
    (hstep : s.step host l = some t) :
    Quiet t ∧ t.wal.file <+: s.wal.file ∧
      (l.cutsFile = false → t.wal.file = s.wal.file ∧ t.wal.generation = s.wal.generation) := by
  cases steps_of_step hstep with
  | prepareError op | prepare op => exact absurd rfl (hl op)
  | refuse id r e hr | enqueue id r hr | enter id r hr =>
    rw [h.prepared] at hr
    cases hr
  | cut hpol hjob hexit hq => exact absurd h.queue hq
  | lockIo batch hjob | writeHeader batch _ _ hjob | exhausted batch _ hjob
  | writeFrames batch _ hjob | sync batch hjob | finishBuffered batch hjob | finish batch hjob
  | drain batch _ hjob =>
    obtain ⟨-,error,hphase⟩ := h.job_eq hjob
    cases hphase
  | failWrite n e batch phase torn hjob hio =>
    obtain ⟨-,error,rfl⟩ := h.job_eq hjob
    cases hio
  | complete r batch error hjob =>
    obtain ⟨hnil,-⟩ := h.job_eq hjob
    cases hnil
  | next error hjob =>
    exact ⟨⟨h.prepared, h.queue, .inl rfl⟩, List.prefix_rfl, fun _ => ⟨rfl, rfl⟩⟩
  | stop | exit | clearSync | resetStats =>
    exact ⟨⟨h.prepared, h.queue, h.job⟩, List.prefix_rfl, fun _ => ⟨rfl, rfl⟩⟩
  | clear => exact ⟨⟨h.prepared, h.queue, h.job⟩, List.nil_prefix, nofun⟩
  | truncateTo offset =>
    exact ⟨⟨h.prepared, h.queue, h.job⟩, (s.wal.truncateTo_keeps host offset).2.2.2, nofun⟩

/-- With no append under way a crash leaves the file as it is. -/
theorem Quiet.crashFile (h : Quiet s) {c : Bytes} (hc : s.CrashFile c) : c = s.wal.file := by
  obtain ⟨⟨n,rfl⟩,-⟩ := hc
  have hidle : s.inProgress = [] := by
    unfold inProgress
    split
    · rename_i hjob
      obtain ⟨-,error,hp⟩ := h.job_eq hjob
      cases hp
    · rename_i hjob
      obtain ⟨-,error,hp⟩ := h.job_eq hjob
      cases hp
    · rfl
  rw [hidle, List.take_nil, List.append_nil]

theorem Quiet.of_outstanding (h : BatchInv s) (hidle : s.outstanding = []) : Quiet s := by
  simp only [outstanding, List.append_eq_nil_iff] at hidle
  obtain ⟨hprep,hqueue,hbatch⟩ := hidle
  refine ⟨hprep, hqueue, ?_⟩
  cases hjob : s.job with
  | none => exact .inl rfl
  | some job =>
    obtain ⟨batch,phase⟩ := job
    rw [hjob] at hbatch
    obtain rfl : batch = [] := hbatch
    obtain ⟨error,rfl⟩ := h.batch phase hjob
    exact .inr ⟨error, rfl⟩

theorem step_maxBatch {l : WalLabel} (hstep : s.step host l = some t) :
    t.wal.maxBatch = s.wal.maxBatch := by
  have hheader : s.wal.ensureHeaderLocked.maxBatch = s.wal.maxBatch := by
    rw [WriteAheadLog.ensureHeaderLocked_eq]
  have hfail (u : WalThreads) (batch : List Request) (e : WalError) :
      (u.failJob batch e).wal.maxBatch = u.wal.maxBatch := by
    unfold failJob
    split <;> rfl
  cases steps_of_step hstep with
  | writeHeader batch bytes wal hjob hfits hfin =>
    obtain ⟨n,rfl⟩ := WriteAheadLog.finalizeFrames_keeps hfin
    exact hheader
  | exhausted batch e => exact (hfail _ batch e).trans hheader
  | failWrite n e batch => exact hfail _ batch e
  | finishBuffered batch | finish batch =>
    unfold finishJob
    split <;> rfl
  | truncateTo offset => exact (s.wal.truncateTo_keeps host offset).2.2.1
  | _ => rfl

theorem BatchInv.step {l : WalLabel} (h : BatchInv s) (hstep : s.step host l = some t) :
    BatchInv t := by
  refine ⟨(step_maxBatch hstep).symm ▸ h.maxBatch, ?_⟩
  have hgo {batch : List Request} {phase phase' : Phase} (hjob : s.job = some ⟨batch, phase⟩)
      (hphase : ∀ error, phase ≠ .completing error) :
      ∀ phase'', some (⟨batch, phase'⟩ : Job) = some ⟨[],phase''⟩ →
        ∃ error, phase'' = .completing error := by
    rintro phase'' ⟨⟩
    obtain ⟨error,rfl⟩ := h.batch phase hjob
    exact absurd rfl (hphase error)
  have hfail (wal : WriteAheadLog) {batch : List Request} {phase : Phase} (e : WalError)
      (hjob : s.job = some ⟨batch, phase⟩) (hphase : ∀ error, phase ≠ .completing error) :
      ∀ phase', (failJob { s with wal := wal } batch e).job = some ⟨[],phase'⟩ →
        ∃ error, phase' = .completing error := by
    unfold failJob
    split
    · exact hgo hjob hphase
    · simp
  have hdone (hist : List ℕ) (batch : List Request) :
      ∀ phase, (finishJob { s with batchHistogram := hist } batch).job = some ⟨[],phase⟩ →
        ∃ error, phase = .completing error := by
    unfold finishJob
    split
    · rintro phase ⟨⟩
      exact ⟨none, rfl⟩
    · simp
  cases steps_of_step hstep with
  | enter => simp
  | cut hpol hjob hexit hq =>
    have hne := cutBatch_ne_nil h.maxBatch s.queue [] 0 (.inr hq)
    rintro phase hp
    simp only [Option.some.injEq, Job.mk.injEq] at hp
    exact absurd hp.1 hne
  | lockIo batch hjob | writeHeader batch _ _ hjob | writeFrames batch _ hjob | sync batch hjob =>
    exact hgo hjob (by simp)
  | exhausted batch e hjob => exact hfail _ e hjob (by simp)
  | failWrite n e batch phase torn hjob hio =>
    refine hfail _ e hjob ?_
    rintro error rfl
    cases hio
  | finishBuffered batch => exact hdone _ batch
  | finish batch => exact hdone _ batch
  | complete r batch error =>
    rintro phase ⟨⟩
    exact ⟨error, rfl⟩
  | next => simp
  | drain batch e =>
    rintro phase hp
    simp only [Option.some.injEq, Job.mk.injEq] at hp
    exact ⟨some e, hp.2.symm⟩
  | _ => exact h.batch

end WalThreads

variable {host : ByteOrder} {hash : Bytes → ℕ} {s t : KVStore} {l : Label}

/-- A store in any run. -/
structure Running (hash : Bytes → ℕ) (s : KVStore) : Prop where
  lock : LockInv s.slots s.admin
  path : PathInv s.admin
  own : OwnInv hash s.wal s.slots
  batch : s.wal.BatchInv

theorem Running.start {disk : Disk} {policy : DurabilityPolicy} {maxBatch : ℕ}
    (hopen : openStore host hash disk policy maxBatch = .ok s) : Running hash s := by
  obtain ⟨wal,m,hwal,rfl⟩ := openStore_eq hopen
  refine ⟨lockInv_start, pathInv_start, ownInv_start hash wal, ?_, ?_⟩
  · change 1 ≤ wal.maxBatch
    rw [(openWal_fields hwal).2.2.1]
    exact (openWal_maxBatch hwal).1
  · simp [KVStore.start, WalThreads.start]

theorem Running.step (h : Running hash s) (hsteps : KVStore.Steps host hash s l t) :
    Running hash t := by
  have heff := hsteps.effect h.lock
  refine ⟨h.lock.step h.path hsteps, h.path.step hsteps, h.own.step heff, ?_⟩
  rcases heff.wal_cases with hwal | ⟨w,hwal⟩
  · rw [hwal]
    exact h.batch
  · exact h.batch.step hwal

theorem Running.run {disk : Disk} {policy : DurabilityPolicy} {maxBatch : ℕ}
    (hopen : openStore host hash disk policy maxBatch = .ok s) {ls : List Label}
    (hrun : run (KVStore.step host hash) s ls = some t) : Running hash t :=
  run_invariant (A := fun _ => True) (fun _ _ _ _ h hstep => h.step (KVStore.steps_of_step hstep))
    (fun _ _ => trivial) hrun (.start hopen)

/-- With all shards locked no append is under way. -/
theorem Running.quiet (h : Running hash s) (hall : ∀ i, s.slots i = .admin) : s.wal.Quiet :=
  .of_outstanding h.batch (h.own.outstanding_eq_nil hall)

end ConcurrentKV

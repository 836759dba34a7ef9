import ConcurrentKV.KVQuiet

/-! Every append gets its outcome: while none begins, each step of a shared log lowers a number,
and until every caller has its outcome some thread can go on. -/
namespace ConcurrentKV
open ByteCodec OpLog Transition

/-- The steps of appends and truncations that have begun, and of the writer. -/
def WalLabel.goesOn : WalLabel → Bool
  | .prepare _ | .stop | .exit | .clear | .truncateTo _ | .resetStats => false
  | _ => true

/-- An exception of the system or of a fault hook. -/
def WalLabel.isFault : WalLabel → Bool
  | .fail _ _ => true
  | _ => false

namespace WalThreads

/-- Whatever is queued has a writer to serve it, and a writer that is gone has left its error. -/
structure Serviced (s : WalThreads) : Prop where
  stopping : s.stopping = false
  alone : s.wal.policy ≠ .groupCommit →
    s.queue = [] ∧ ∀ job, s.job = some job → job.phase.holdsIo = true
  exited : s.exited = true → s.wal.failure.isSome = true ∧ s.queue = []
  failed : ∀ batch e, s.job = some ⟨batch, .completing (some e)⟩ →
    s.wal.failure.isSome = true ∧ s.queue = []

/-- Nothing is under way. -/
structure AtRest (s : WalThreads) : Prop where
  outstanding : s.outstanding = []
  job : s.job = none
  truncating : s.truncating = none

/-- The file cannot take what is to be written next, so that the write throws. -/
def cannotWrite (s : WalThreads) : Bool :=
  match s.job with
  | some ⟨_, .header⟩ =>
    !decide ((s.wal.headerBytes = [] ∨ s.wal.outputOpen) ∧ s.fits s.wal.headerBytes)
  | some ⟨_, .frames bytes⟩ => !decide (s.wal.outputOpen ∧ s.fits bytes)
  | _ => false

variable {host : ByteOrder} {s t : WalThreads}

theorem Serviced.start (wal : WriteAheadLog) : Serviced (WalThreads.start wal) :=
  ⟨rfl, fun _ => ⟨rfl, by simp [WalThreads.start]⟩, by simp [WalThreads.start],
    by simp [WalThreads.start]⟩

/-- A batch that only the writer has. -/
theorem Serviced.group (h : Serviced s) {job : Job} (hjob : s.job = some job)
    (hio : job.phase.holdsIo = false) : s.wal.policy = .groupCommit := by
  by_contra hpol
  have hheld := (h.alone hpol).2 job hjob
  rw [hio] at hheld
  cases hheld

/-- The batch goes on in the critical section, and neither the policy nor the failure changes. -/
theorem Serviced.work (h : Serviced s) (job : Job) (hio : job.phase.holdsIo = true)
    (hjob : t.job = some job) (hstop : t.stopping = s.stopping) (hqueue : t.queue = s.queue)
    (hexit : t.exited = s.exited) (hpol : t.wal.policy = s.wal.policy)
    (hfail : t.wal.failure = s.wal.failure) : Serviced t := by
  refine ⟨hstop.trans h.stopping, ?_, ?_, ?_⟩
  · intro hne
    rw [hpol] at hne
    refine ⟨hqueue.trans (h.alone hne).1, ?_⟩
    intro job' hjob'
    rw [hjob] at hjob'
    obtain rfl := Option.some.inj hjob'
    exact hio
  · rw [hexit, hfail, hqueue]
    exact h.exited
  · intro batch e hj
    rw [hjob] at hj
    obtain rfl := Option.some.inj hj
    cases hio

theorem Serviced.fail (h : Serviced s) {wal : WriteAheadLog} (hpol : wal.policy = s.wal.policy)
    (hfail : wal.failure = s.wal.failure) (batch : List Request) (e : WalError) :
    Serviced (failJob { s with wal := wal } batch e) := by
  unfold failJob
  split
  · rename_i hgroup
    refine ⟨h.stopping, fun hne => absurd hgroup hne, ?_, by simp⟩
    dsimp only
    rw [hfail]
    exact h.exited
  · rename_i hgroup
    dsimp only at hgroup
    rw [hpol] at hgroup
    exact ⟨h.stopping, fun _ => ⟨(h.alone hgroup).1, by simp⟩,
      fun hexit => ⟨rfl, (h.exited hexit).2⟩, by simp⟩

theorem Serviced.done (h : Serviced s) (hist : List ℕ) (batch : List Request) :
    Serviced (finishJob { s with batchHistogram := hist } batch) := by
  unfold finishJob
  split
  · rename_i hgroup
    exact ⟨h.stopping, fun hne => absurd hgroup hne, h.exited, by simp⟩
  · rename_i hgroup
    exact ⟨h.stopping, fun _ => ⟨(h.alone hgroup).1, by simp⟩, h.exited, by simp⟩

/-- While the log is not destroyed. -/
theorem Serviced.step {l : WalLabel} (h : Serviced s) (hl : l ≠ .stop)
    (hstep : s.step host l = some t) : Serviced t := by
  have hheader : s.wal.ensureHeaderLocked.policy = s.wal.policy ∧
      s.wal.ensureHeaderLocked.failure = s.wal.failure := by
    rw [WriteAheadLog.ensureHeaderLocked_eq]
    exact ⟨rfl, rfl⟩
  -- an accepted append finds no failure
  have hnone (hadm : s.wal.appendCheck = .ok ()) : s.wal.failure.isSome ≠ true := by
    intro hsome
    obtain ⟨e,he⟩ := Option.isSome_iff_exists.mp hsome
    simp [WriteAheadLog.appendCheck, he] at hadm
  cases steps_of_step hstep with
  | prepareError | prepare | refuse | clear | clearSync | resetStats =>
    exact ⟨h.stopping, h.alone, h.exited, h.failed⟩
  | enqueue id r hr hpol hadm hexit =>
    refine ⟨h.stopping, fun hne => absurd hpol hne, ?_, ?_⟩
    · intro hgone
      exact absurd (h.exited hgone).1 (hnone hadm)
    · intro batch e hjob
      exact absurd (h.failed batch e hjob).1 (hnone hadm)
  | enter id r hr hpol hio hjob hadm hexit =>
    exact h.work ⟨[r], .header⟩ rfl rfl rfl rfl rfl rfl rfl
  | cut hpol hjob hexit hq =>
    refine ⟨h.stopping, fun hne => absurd hpol hne, ?_, by simp⟩
    intro hgone
    exact absurd (hgone.symm.trans hexit) (by simp)
  | lockIo batch hjob hio => exact h.work ⟨batch, .header⟩ rfl rfl rfl rfl rfl rfl rfl
  | writeHeader batch bytes wal hjob hfits hfin =>
    obtain ⟨n,rfl⟩ := WriteAheadLog.finalizeFrames_keeps hfin
    exact h.work ⟨batch, .frames bytes⟩ rfl rfl rfl rfl rfl hheader.1 hheader.2
  | exhausted batch e => exact h.fail (by simpa using hheader.1) (by simpa using hheader.2) batch e
  | writeFrames batch bytes => exact h.work ⟨batch, .flushed⟩ rfl rfl rfl rfl rfl rfl rfl
  | sync batch => exact h.work ⟨batch, .synced⟩ rfl rfl rfl rfl rfl rfl rfl
  | failWrite n e batch => exact h.fail (by rfl) (by rfl) batch e
  | finishBuffered batch => exact h.done _ batch
  | finish batch => exact h.done _ batch
  | complete r batch error hjob =>
    refine ⟨h.stopping, fun hne => absurd (h.group hjob rfl) hne, h.exited, ?_⟩
    intro batch' e he
    obtain ⟨-,hphase⟩ := Job.mk.inj (Option.some.inj he)
    obtain rfl := Phase.completing.inj hphase
    exact h.failed _ e hjob
  | next error hjob =>
    refine ⟨h.stopping, fun hne => absurd (h.group hjob rfl) hne, ?_, by simp⟩
    intro hgone
    rcases Bool.or_eq_true_iff.mp hgone with hwas | hsome
    · exact h.exited hwas
    · obtain ⟨e,rfl⟩ := Option.isSome_iff_exists.mp hsome
      exact h.failed _ e hjob
  | drain batch e hjob =>
    exact ⟨h.stopping, fun hne => absurd (h.group hjob rfl) hne, fun _ => ⟨rfl, rfl⟩,
      fun _ _ _ => ⟨rfl, rfl⟩⟩
  | stop => exact absurd rfl hl
  | exit hpol hjob hq hstop =>
    rw [h.stopping] at hstop
    cases hstop
  | truncateTo offset =>
    obtain ⟨hfail,hpol,-⟩ := s.wal.truncateTo_keeps host offset
    refine ⟨h.stopping, ?_, ?_, ?_⟩
    · intro hne
      exact h.alone fun he => hne (hpol.trans he)
    · intro hgone
      dsimp only
      rw [hfail]
      exact h.exited hgone
    · intro batch e hjob
      dsimp only
      rw [hfail]
      exact h.failed batch e hjob

/-- Some thread of the log can go on. It needs an exception for that only where the file cannot
take what is to be written. -/
theorem Serviced.goes (h : Serviced s) (host : ByteOrder) :
    s.AtRest ∨ ∃ w t, w.goesOn = true ∧ s.step host w = some t ∧
      (w.isFault = true → s.cannotWrite = true) := by
  have hgo (w : WalLabel) (hw : w.goesOn = true) (hsome : (s.step host w).isSome = true)
      (hfail : w.isFault = true → s.cannotWrite = true) :
      s.AtRest ∨ ∃ w t, w.goesOn = true ∧ s.step host w = some t ∧
        (w.isFault = true → s.cannotWrite = true) := by
    obtain ⟨t,ht⟩ := Option.isSome_iff_exists.mp hsome
    exact .inr ⟨w, t, hw, ht, hfail⟩
  cases htrunc : s.truncating with
  | some bytes =>
    apply hgo .clearSync rfl ?_ (by simp [WalLabel.isFault])
    simp [WalThreads.step, htrunc]
  | none =>
  cases hjob : s.job with
  | some job =>
    obtain ⟨batch,phase⟩ := job
    cases phase with
    | taken =>
      have hio : s.ioFree = true := by simp [ioFree, htrunc, hjob, Phase.holdsIo]
      apply hgo .lockIo rfl ?_ (by simp [WalLabel.isFault])
      simp only [WalThreads.step, hjob, if_pos hio, Option.isSome_some]
    | header =>
      by_cases hcan : (s.wal.headerBytes = [] ∨ s.wal.outputOpen) ∧ s.fits s.wal.headerBytes
      · apply hgo .writeHeader rfl ?_ (by simp [WalLabel.isFault])
        simp only [WalThreads.step, hjob, if_pos hcan]
        split <;> rfl
      · apply hgo (.fail 0 .headerWrite) rfl
        · simp only [WalThreads.step, hjob, Option.isSome_some]
        · intro _
          simp [cannotWrite, hjob, hcan]
    | frames bytes =>
      by_cases hcan : s.wal.outputOpen ∧ s.fits bytes
      · apply hgo .writeFrames rfl ?_ (by simp [WalLabel.isFault])
        simp only [WalThreads.step, hjob, if_pos hcan, Option.isSome_some]
      · apply hgo (.fail 0 .frameWrite) rfl
        · simp only [WalThreads.step, hjob, Option.isSome_some]
        · intro _
          simp [cannotWrite, hjob, hcan]
    | flushed =>
      by_cases hpol : s.wal.policy = .buffered
      · apply hgo .finish rfl ?_ (by simp [WalLabel.isFault])
        simp only [WalThreads.step, hjob, if_pos hpol, Option.isSome_some]
      · apply hgo .sync rfl ?_ (by simp [WalLabel.isFault])
        simp only [WalThreads.step, hjob]
        rw [if_pos hpol]
        rfl
    | synced =>
      apply hgo .finish rfl ?_ (by simp [WalLabel.isFault])
      simp only [WalThreads.step, hjob, Option.isSome_some]
    | failing e =>
      apply hgo .drain rfl ?_ (by simp [WalLabel.isFault])
      simp only [WalThreads.step, hjob, Option.isSome_some]
    | completing error =>
      cases batch with
      | nil =>
        apply hgo .next rfl ?_ (by simp [WalLabel.isFault])
        simp only [WalThreads.step, hjob, Option.isSome_some]
      | cons r batch =>
        apply hgo .complete rfl ?_ (by simp [WalLabel.isFault])
        simp only [WalThreads.step, hjob, Option.isSome_some]
  | none =>
    have hio : s.ioFree = true := by simp [ioFree, htrunc, hjob]
    by_cases hq : s.queue = []
    · cases hprep : s.prepared with
      | nil => exact .inl ⟨by simp [outstanding, hprep, hq, hjob], hjob, htrunc⟩
      | cons r rest =>
        have hfind : s.prepared.find? (fun x => x.id == r.id) = some r := by
          simp [hprep]
        apply hgo (.submit r.id) rfl ?_ (by simp [WalLabel.isFault])
        simp only [WalThreads.step, hfind]
        rw [if_neg (by simp [hio, hjob])]
        split
        · rfl
        · rename_i hadm
          -- a writer that is gone has set `failure_`, so that the append was refused
          have halive : s.exited ≠ true := by
            intro hgone
            obtain ⟨e,he⟩ := Option.isSome_iff_exists.mp (h.exited hgone).1
            simp [WriteAheadLog.appendCheck, he] at hadm
          rw [if_neg halive]
          rfl
    · have hpol : s.wal.policy = .groupCommit := by
        by_contra hne
        exact hq (h.alone hne).1
      have halive : s.exited = false := by
        cases hgone : s.exited with
        | false => rfl
        | true => exact absurd (h.exited hgone).2 hq
      apply hgo .cut rfl ?_ (by simp [WalLabel.isFault])
      simp only [WalThreads.step, if_pos (⟨hpol, hjob, halive, hq⟩ : s.wal.policy = .groupCommit ∧
        s.job = none ∧ s.exited = false ∧ s.queue ≠ []), Option.isSome_some]

end WalThreads

/-! ### Ranks -/

def Phase.rank : Phase → ℕ
  | .taken => 8
  | .header => 7
  | .frames _ => 6
  | .flushed => 5
  | .synced => 4
  | .failing _ => 3
  | .completing _ => 1

def Job.rank (job : Job) : ℕ := job.batch.length+job.phase.rank

namespace WalThreads

def jobRank (s : WalThreads) : ℕ := match s.job with | some job => job.rank | none => 0

/-- Each request pays for a batch of its own. -/
def rank (s : WalThreads) : ℕ :=
  11*s.prepared.length+10*s.queue.length+s.jobRank+cond s.truncating.isSome 1 0

variable {host : ByteOrder} {s t : WalThreads}

theorem rank_clearSync (hstep : s.step host .clearSync = some t) : t.rank < s.rank := by
  cases steps_of_step hstep with
  | clearSync htrunc =>
    simp only [rank, jobRank, htrunc, Option.isSome_none, cond_true, cond_false]
    omega

theorem rank_lt {l : WalLabel} (hmax : 1 ≤ s.wal.maxBatch) (hl : l.goesOn = true)
    (hstep : s.step host l = some t) : t.rank < s.rank := by
  have herase {r : Request} (hr : r ∈ s.prepared) :
      (s.prepared.erase r).length+1 = s.prepared.length := by
    rw [List.length_erase_of_mem hr]
    have := List.length_pos_of_mem hr
    omega
  have hjobRank {batch : List Request} {phase : Phase} (hjob : s.job = some ⟨batch,phase⟩) :
      s.jobRank = batch.length+phase.rank := by
    rw [jobRank, hjob]
    rfl
  -- only the batch goes on, or it ends
  have hgo {u : WalThreads} (hrank : u.jobRank < s.jobRank) (hprep : u.prepared = s.prepared)
      (hqueue : u.queue = s.queue) (htrunc : u.truncating = s.truncating) : u.rank < s.rank := by
    rw [rank, rank, hprep, hqueue, htrunc]
    omega
  have hfail (wal : WriteAheadLog) {batch : List Request} {phase : Phase} (e : WalError)
      (hjob : s.job = some ⟨batch,phase⟩) (hphase : 3 < phase.rank) :
      (failJob { s with wal := wal } batch e).rank < s.rank := by
    have hnow := hjobRank hjob
    unfold failJob
    split
    · exact hgo (show batch.length+3 < s.jobRank by omega) rfl rfl rfl
    · exact hgo (show 0 < s.jobRank by omega) rfl rfl rfl
  have hdone (hist : List ℕ) {batch : List Request} {phase : Phase}
      (hjob : s.job = some ⟨batch,phase⟩) (hphase : 1 < phase.rank) :
      (finishJob { s with batchHistogram := hist } batch).rank < s.rank := by
    have hnow := hjobRank hjob
    unfold finishJob
    split
    · exact hgo (show batch.length+1 < s.jobRank by omega) rfl rfl rfl
    · exact hgo (show 0 < s.jobRank by omega) rfl rfl rfl
  cases steps_of_step hstep with
  | refuse id r e hr =>
    have := herase hr
    simp only [rank, jobRank]
    omega
  | enqueue id r hr =>
    have := herase hr
    simp only [rank, jobRank, List.length_append, List.length_singleton]
    omega
  | enter id r hr hpol hio hjob =>
    have := herase hr
    simp only [rank, jobRank, hjob, Job.rank, Phase.rank, List.length_singleton]
    omega
  | cut hpol hjob hexit hq =>
    have hparts := congrArg List.length (cutBatch_append s.wal.maxBatch s.queue [] 0)
    have hpos := List.length_pos_of_ne_nil (cutBatch_ne_nil hmax s.queue [] 0 (.inr hq))
    rw [List.length_append, List.nil_append] at hparts
    simp only [rank, jobRank, hjob, Job.rank, Phase.rank]
    omega
  | lockIo batch hjob | writeHeader batch _ _ hjob | writeFrames batch _ hjob | sync batch hjob =>
    have hnow := hjobRank hjob
    refine hgo ?_ rfl rfl rfl
    rw [hnow]
    simp [jobRank, Job.rank, Phase.rank]
  | exhausted batch e hjob => exact hfail _ e hjob (by simp [Phase.rank])
  | failWrite n e batch phase torn hjob hio =>
    refine hfail _ e hjob ?_
    cases phase with
    | header | frames | flushed | synced => simp [Phase.rank]
    | _ => cases hio
  | finishBuffered batch hjob => exact hdone _ hjob (by simp [Phase.rank])
  | finish batch hjob => exact hdone _ hjob (by simp [Phase.rank])
  | complete r batch error hjob =>
    have hnow := hjobRank hjob
    refine hgo ?_ rfl rfl rfl
    rw [hnow]
    simp [jobRank, Job.rank, Phase.rank]
  | next error hjob =>
    have hnow := hjobRank hjob
    refine hgo ?_ rfl rfl rfl
    rw [hnow]
    simp [jobRank, Phase.rank]
  | drain batch e hjob =>
    have hnow := hjobRank hjob
    have hall : jobRank { s with job := some ⟨batch ++ s.queue, .completing (some e)⟩ } =
        batch.length+s.queue.length+1 := by
      simp [jobRank, Job.rank, Phase.rank]
    rw [rank, rank, hnow]
    change _+10*0+jobRank { s with job := some ⟨batch ++ s.queue, .completing (some e)⟩ }+_ < _
    rw [hall]
    simp only [Phase.rank]
    omega
  | clearSync => exact rank_clearSync hstep
  | _ => cases hl

theorem rank_prepare {op : WalRecord} (hstep : s.step host (.prepare op) = some t) :
    t.rank ≤ s.rank+11 := by
  cases steps_of_step hstep with
  | prepareError =>
    simp only [rank, jobRank]
    omega
  | prepare =>
    simp only [rank, jobRank, List.length_append, List.length_singleton]
    omega

/-- A truncation has its sync still to come. -/
theorem rank_clear (hstep : s.step host .clear = some t) : t.rank ≤ s.rank+1 := by
  cases steps_of_step hstep with
  | clear hio hgen =>
    have hcond (b : Bool) : cond b 1 0 ≤ 1 := by cases b <;> simp
    have := hcond (if s.wal.policy = .buffered then none else some s.wal.file).isSome
    simp only [rank, jobRank]
    omega

end WalThreads

end ConcurrentKV

import ConcurrentKV.WalRequests
import ConcurrentKV.WalResume

/-! What a process crash or a power loss can leave of the shared log: a settled file and a
part of the one batch that is being written behind it. -/
namespace ConcurrentKV
open ByteCodec OpLog Transition

namespace WalThreads

/-- The bytes that are being written. -/
def inProgress (s : WalThreads) : Bytes :=
  match s.job with
  | some ⟨_, .header⟩ => s.wal.headerBytes
  | some ⟨_, .frames bytes⟩ => bytes
  | _ => []

/-- The batch that is in the file but not settled: its sync is still to come, or under the
buffered policy the end of its critical section. -/
def unsettled (s : WalThreads) : List Request :=
  match s.job with
  | some ⟨batch, .flushed⟩ => batch
  | _ => []

/-- A file that a crash of the process can leave: all that was written, and any part of
what was being written. -/
def CrashFile (s : WalThreads) (b : Bytes) : Prop :=
  (∃ n, b = s.wal.file ++ s.inProgress.take n) ∧ b.length ≤ kMaxStreamoff

/-- A file that a power loss can leave: everything up to the last sync and any part of what
came after it, or the bytes from before a truncation that is not synced. -/
def PowerLossFile (s : WalThreads) (b : Bytes) : Prop :=
  (b <+: s.wal.file ++ s.inProgress ∧ s.syncedLength ≤ b.length ∧ b.length ≤ kMaxStreamoff) ∨
    s.truncating = some b

end WalThreads

/-- The log stands on the settled object `base` with operations `before`; `settled` are the
requests of this run among them. -/
def Grounded (host : ByteOrder) (s : WalThreads) (base : WriteAheadLog) (before : List WalRecord)
    (settled : List Request) : Prop :=
  match s.job with
  | some ⟨batch, .frames bytes⟩ => DuringWrite host base s.syncedLength before batch ∧
      s.wal = midWrite host base (batch.map Request.op) ∧
      bytes = framesFrom host base.portable base.nextSequence (batch.map Request.op) ∧
      s.history = settled
  | some ⟨batch, .flushed⟩ => DuringWrite host base s.syncedLength before batch ∧
      s.wal = base.appended host (batch.map Request.op) ∧ s.history = settled ++ batch
  | _ => AtRest host s.wal s.syncedLength before ∧ base = s.wal ∧ s.history = settled

structure Ground (host : ByteOrder) (s : WalThreads) (base : WriteAheadLog)
    (before : List WalRecord) (settled : List Request) : Prop where
  grounded : Grounded host s base before settled
  log : LogInv host s (before ++ s.unsettled.map Request.op)

theorem ground_start {host : ByteOrder} {wal : WriteAheadLog} {ops : List WalRecord}
    (h : WalInv host wal ops) (hmax : 1 ≤ wal.maxBatch ∧ wal.maxBatch ≤ 4096)
    (hroom : wal.file.length ≤ kMaxStreamoff) : Ground host (WalThreads.start wal) wal ops [] := by
  have hrest : AtRest host wal wal.file.length ops := ⟨h, fun _ => rfl⟩
  refine ⟨⟨hrest, rfl, rfl⟩, ?_⟩
  rw [show ops ++ (WalThreads.start wal).unsettled.map Request.op = ops from List.append_nil ops]
  exact ⟨hrest, by simp [WalThreads.start], by simp [WalThreads.start], hmax, hroom⟩

/-- Offsets from which replay can resume stay so when a batch is written. -/
theorem DuringWrite.resumes {host : ByteOrder} {base : WriteAheadLog} {n : ℕ}
    {ops : List WalRecord} {batch : List Request} (h : DuringWrite host base n ops batch) {W j : ℕ}
    (hres : Resumes host base.file ops W j) :
    Resumes host (base.appended host (batch.map Request.op)).file (ops ++ batch.map Request.op)
      W j := by
  refine hres.extend (h.rest.inv.wellFormed h.admitted) ?_
  intro _ s hnil
  exact absurd (List.map_eq_nil_iff.mp hnil) h.limits.ne_nil

/-- At every point of a run without failures, the file holds exactly the flushed operations. -/
theorem LogInv.fileShape {host : ByteOrder} {s : WalThreads} {ops : List WalRecord}
    (h : LogInv host s ops) : FileShape host s.wal.file ops := by
  have hw := h.writing
  unfold Writing at hw
  split at hw
  · exact hw.inv.agree.fileShape
  · exact hw.rest.inv.agree.fileShape
  · exact hw.rest.inv.agree.fileShape
  · -- the header of a fresh file is a log without records
    obtain ⟨base,hd,hwal,-⟩ := hw
    have hinv := hd.rest.inv.appended_nil hd.admitted
    rw [hwal, midWrite_file]
    simpa [WriteAheadLog.appended, framesFrom] using hinv.agree.fileShape
  · obtain ⟨base,before,hd,hwal,rfl⟩ := hw
    rw [hwal]
    exact hd.appended.agree.fileShape
  · exact hw.1.inv.agree.fileShape
  · exact hw.1.inv.agree.fileShape
  · exact hw.elim
  · exact hw.elim

namespace Ground

variable {host : ByteOrder} {s t : WalThreads} {base : WriteAheadLog} {before : List WalRecord}
  {settled : List Request}

/-- One step of a run without failures: the ground stays, or a batch settles on it. -/
theorem step {l : WalLabel} (h : Ground host s base before settled) (hl : l.isAppend = true)
    (hstep : s.step host l = some t) :
    Ground host t base before settled ∨
    ∃ batch n, DuringWrite host base n before batch ∧ s.job = some ⟨batch, .flushed⟩ ∧
      t.history = s.history ∧
      Ground host t (base.appended host (batch.map Request.op)) (before ++ batch.map Request.op)
        (settled ++ batch) := by
  obtain ⟨hg,hlog⟩ := h
  obtain ⟨new,hnew,hlog',-⟩ := hlog.step hl hstep
  have hsame {u : WalThreads} {new : List Request}
      (hlog' : LogInv host u (before ++ s.unsettled.map Request.op ++ new.map Request.op))
      (hnew : u.history = s.history ++ new) (hu : u.history = s.history) :
      LogInv host u (before ++ s.unsettled.map Request.op) := by
    rw [hu] at hnew
    have : new = [] := by simpa using hnew
    simpa [this] using hlog'
  have hw := hlog.writing
  unfold Grounded at hg
  cases WalThreads.steps_of_step hstep with
  | prepareError | prepare | refuse | enqueue | stop | exit | resetStats =>
    exact .inl ⟨hg, hsame hlog' hnew rfl⟩
  | enter id r hr hpol hio hjob | cut hpol hjob =>
    have hlog' := hsame hlog' hnew rfl
    simp only [WalThreads.unsettled, hjob] at hg hlog'
    exact .inl ⟨hg, hlog'⟩
  | lockIo batch hjob =>
    have hlog' := hsame hlog' hnew rfl
    simp only [WalThreads.unsettled, hjob] at hg hlog'
    exact .inl ⟨hg, hlog'⟩
  | writeHeader batch bytes wal hjob hfits hfin =>
    have hlog' := hsame hlog' hnew rfl
    rw [hlog.finalize hjob] at hfin
    obtain ⟨rfl,rfl⟩ := Prod.mk.inj (Except.ok.inj hfin)
    simp only [WalThreads.unsettled, hjob] at hg hlog'
    obtain ⟨hrest,rfl,hhist⟩ := hg
    rw [Writing, hjob] at hw
    have hroom := (LogInv.sequence_room hrest.inv hlog.room
      (hw.limits.length_le.trans hlog.maxBatch.2)).2
    exact .inl ⟨⟨⟨hrest, hw.admitted, hw.limits, hw.prepared, hroom⟩, rfl, rfl, hhist⟩, hlog'⟩
  | exhausted batch e hjob hfin =>
    rw [hlog.finalize hjob] at hfin
    cases hfin
  | writeFrames batch bytes hjob hfits =>
    have hb : batch = new := by simpa using hnew
    subst hb
    simp only [WalThreads.unsettled, hjob, List.map_nil, List.append_nil] at hg hlog'
    obtain ⟨hd,hwal,rfl,hhist⟩ := hg
    refine .inl ⟨⟨hd, ?_, ?_⟩, hlog'⟩
    · simp [hwal, midWrite, WriteAheadLog.appended]
    · rw [hhist]
  | sync batch hjob hpol =>
    have hlog' := hsame hlog' hnew rfl
    simp only [WalThreads.unsettled, hjob] at hg hlog'
    obtain ⟨hd,hwal,hhist⟩ := hg
    have hinv := hd.appended
    rw [← hwal] at hinv
    refine .inr ⟨batch, s.syncedLength, hd, hjob, rfl, ⟨⟨hinv, fun _ => rfl⟩, hwal.symm, hhist⟩, ?_⟩
    simpa [WalThreads.unsettled] using hlog'
  | finishBuffered batch hjob hpol =>
    rw [WalThreads.finishJob, if_neg (by rw [hpol]; decide)] at hnew hlog' ⊢
    have hlog' := hsame hlog' hnew rfl
    simp only [WalThreads.unsettled, hjob] at hg hlog'
    obtain ⟨hd,hwal,hhist⟩ := hg
    have hinv := hd.appended
    rw [← hwal] at hinv
    refine .inr ⟨batch, s.syncedLength, hd, hjob, rfl,
      ⟨⟨hinv, fun hne => absurd hpol hne⟩, hwal.symm, hhist⟩, ?_⟩
    simpa [WalThreads.unsettled] using hlog'
  | finish batch hjob =>
    left
    unfold WalThreads.finishJob at hnew hlog' ⊢
    split at hnew
    · rename_i hpol
      rw [if_pos hpol] at hlog'
      rw [if_pos hpol]
      have hlog' := hsame hlog' hnew rfl
      simp only [WalThreads.unsettled, hjob] at hg hlog'
      exact ⟨hg, hlog'⟩
    · rename_i hpol
      rw [if_neg hpol] at hlog'
      rw [if_neg hpol]
      have hlog' := hsame hlog' hnew rfl
      simp only [WalThreads.unsettled, hjob] at hg hlog'
      exact ⟨hg, hlog'⟩
  | complete r batch error hjob | next error hjob =>
    have hlog' := hsame hlog' hnew rfl
    simp only [WalThreads.unsettled, hjob] at hg hlog'
    exact .inl ⟨hg, hlog'⟩
  | failWrite | clear | clearSync | truncateTo => cases hl
  | drain batch e hjob =>
    rw [Writing, hjob] at hw
    exact hw.elim

/-- Without outstanding requests the writer has at most to fetch its next batch. -/
theorem idle (h : Ground host s base before settled) (hidle : s.outstanding = []) :
    (s.job = none ∨ s.job = some ⟨[], .completing none⟩) ∧ s.prepared = [] ∧ s.queue = [] := by
  have hw := h.log.writing
  simp only [WalThreads.outstanding, List.append_eq_nil_iff] at hidle
  obtain ⟨hprep,hqueue,hbatch⟩ := hidle
  refine ⟨?_, hprep, hqueue⟩
  cases hjob : s.job with
  | none => exact .inl rfl
  | some job =>
    obtain ⟨batch,phase⟩ := job
    rw [hjob] at hbatch
    obtain rfl : batch = [] := hbatch
    rw [Writing, hjob] at hw
    -- every phase but the last has a batch with at least one request
    cases phase with
    | taken | header => exact absurd rfl hw.limits.ne_nil
    | frames bytes =>
      obtain ⟨base,hd,-⟩ := hw
      exact absurd rfl hd.limits.ne_nil
    | flushed =>
      obtain ⟨base,before,hd,-⟩ := hw
      exact absurd rfl hd.limits.ne_nil
    | synced => exact absurd rfl hw.2.2.ne_nil
    | failing e => exact hw.elim
    | completing e =>
      cases e with
      | none => exact .inr rfl
      | some e => exact hw.elim

theorem rest_of_idle (h : Ground host s base before settled) (hidle : s.outstanding = []) :
    AtRest host s.wal s.syncedLength before ∧ base = s.wal ∧ s.history = settled := by
  have hg := h.grounded
  unfold Grounded at hg
  rcases (h.idle hidle).1 with hjob | hjob
  · rwa [hjob] at hg
  · rwa [hjob] at hg

/-- `Clear` between batches puts the log on an empty file of the next generation. -/
theorem clear (h : Ground host s base before settled) (hidle : s.outstanding = [])
    (hstep : s.step host .clear = some t) : Ground host t s.wal.cleared [] settled := by
  obtain ⟨hjob,hprep,hqueue⟩ := h.idle hidle
  obtain ⟨hrest,-,hhist⟩ := h.rest_of_idle hidle
  have hnone : s.awaiting = [] := by
    rcases hjob with hjob | hjob
    · simp [WalThreads.awaiting, WalThreads.unwritten, hprep, hqueue, hjob]
    · simp [WalThreads.awaiting, WalThreads.unwritten, hprep, hqueue, hjob]
  have hlog := h.log.clear (.inr hnone) hstep
  cases WalThreads.steps_of_step hstep with
  | clear hio hgen =>
    have hrest' : AtRest host s.wal.cleared 0 [] := ⟨(hrest.inv.cleared hgen).2, fun _ => rfl⟩
    rcases hjob with hjob | hjob
    · refine ⟨?_, ?_⟩
      · simp only [Grounded, hjob]
        exact ⟨hrest', trivial, hhist⟩
      · simpa [WalThreads.unsettled, hjob] using hlog
    · refine ⟨?_, ?_⟩
      · simp only [Grounded, hjob]
        exact ⟨hrest', trivial, hhist⟩
      · simpa [WalThreads.unsettled, hjob] using hlog

theorem clearSync (h : Ground host s base before settled)
    (hstep : s.step host .clearSync = some t) :
    Ground host t base before settled := by
  have hlog := h.log.clearSync hstep
  cases WalThreads.steps_of_step hstep with
  | clearSync => exact ⟨h.grounded, hlog⟩

/-- Everything settled is on stable storage, if the policy syncs. -/
theorem synced (h : Ground host s base before settled) (hpol : s.wal.policy ≠ .buffered) :
    s.syncedLength = base.file.length := by
  have hg := h.grounded
  unfold Grounded at hg
  split at hg
  · obtain ⟨hd,hwal,-⟩ := hg
    rw [hwal] at hpol
    exact hd.rest.stable hpol
  · obtain ⟨hd,hwal,-⟩ := hg
    rw [hwal] at hpol
    exact hd.rest.stable hpol
  · obtain ⟨hrest,rfl,-⟩ := hg
    exact hrest.stable hpol

theorem history_eq (h : Ground host s base before settled) :
    s.history = settled ++ s.unsettled := by
  have hg := h.grounded
  unfold Grounded at hg
  unfold WalThreads.unsettled
  split at hg
  · rename_i hjob
    rw [hjob, List.append_nil]
    exact hg.2.2.2
  · rename_i hjob
    rw [hjob]
    exact hg.2.2
  · rename_i hnf hnfl
    split
    · rename_i hjob
      exact absurd hjob (hnfl _)
    · rw [List.append_nil]
      exact hg.2.2

theorem unsettled_subset (s : WalThreads) : ∀ r ∈ s.unsettled, r ∈ s.outstanding := by
  intro r hr
  unfold WalThreads.unsettled at hr
  split at hr
  · rename_i hjob
    simp [WalThreads.outstanding, hjob, hr]
  · cases hr

/-- The acknowledged requests are settled; others may be, too. -/
theorem acked_settled (h : Ground host s base before settled) (hack : WalThreads.AckOrder s)
    (hids : s.ids.Perm (List.range s.nextId)) :
    ∃ rest, settled = s.acked ++ rest ∧ ∀ r ∈ rest, r ∈ s.outstanding := by
  have hhist := h.history_eq
  rw [hack.history_eq hids] at hhist
  unfold WalThreads.unsettled at hhist
  split at hhist
  · rename_i batch hjob
    have hun : s.uncompleted = batch := by simp [WalThreads.uncompleted, hjob]
    rw [hun] at hhist
    exact ⟨[], by simpa using (List.append_cancel_right hhist).symm, by simp⟩
  · exact ⟨s.uncompleted, by simpa using hhist.symm, WalThreads.uncompleted_subset⟩

theorem inv (h : Ground host s base before settled) : WalInv host base before := by
  have hg := h.grounded
  unfold Grounded at hg
  split at hg
  · exact hg.1.rest.inv
  · exact hg.1.rest.inv
  · obtain ⟨hrest,rfl,-⟩ := hg
    exact hrest.inv

/-- The file, with what is being written, goes no further than one batch behind the ground. -/
theorem span (h : Ground host s base before settled) :
    base.file <+: s.wal.file ∧ (s.wal.file ++ s.inProgress = base.file ∨
    ∃ batch : List Request, (∀ r ∈ batch, r ∈ s.outstanding) ∧ base.appendCheck = .ok () ∧
      (∀ op ∈ batch.map Request.op, RecordOk base.portable op) ∧
      before.length+(batch.map Request.op).length < 2^64 ∧
      s.wal.file ++ s.inProgress <+: base.file ++ (base.headerBytes ++
        framesFrom host base.portable base.nextSequence (batch.map Request.op))) := by
  have hw := h.log.writing
  have hlog := h.log
  have hg := h.grounded
  unfold Grounded at hg
  have hout {batch : List Request} {phase : Phase} (hjob : s.job = some ⟨batch, phase⟩) :
      ∀ r ∈ batch, r ∈ s.outstanding := by
    intro r hr
    simp [WalThreads.outstanding, hjob, hr]
  split at hg
  · rename_i batch bytes hjob
    obtain ⟨hd,hwal,rfl,-⟩ := hg
    refine ⟨?_, .inr ⟨batch, hout hjob, hd.admitted, hd.ok, by simpa using hd.room, ?_⟩⟩
    · rw [hwal]
      exact List.prefix_append _ _
    · rw [hwal, WalThreads.inProgress, hjob, midWrite_file, List.append_assoc]
  · rename_i batch hjob
    obtain ⟨hd,hwal,-⟩ := hg
    refine ⟨?_, .inr ⟨batch, hout hjob, hd.admitted, hd.ok, by simpa using hd.room, ?_⟩⟩
    · rw [hwal]
      exact List.prefix_append _ _
    · rw [hwal, WalThreads.inProgress, hjob, List.append_nil]
      exact List.prefix_rfl
  · rename_i hnf hnfl
    obtain ⟨hrest,rfl,-⟩ := hg
    refine ⟨List.prefix_rfl, ?_⟩
    by_cases hhead : ∃ batch, s.job = some ⟨batch, .header⟩
    · -- the header comes first, the frames are not finalised yet
      obtain ⟨batch,hjob⟩ := hhead
      rw [Writing, hjob] at hw
      have hroom := (LogInv.sequence_room hrest.inv hlog.room
        (hw.limits.length_le.trans hlog.maxBatch.2)).2
      refine .inr ⟨batch, hout hjob, hw.admitted, ?_, by simpa using hroom, ?_⟩
      · intro op hop
        obtain ⟨r,hr,rfl⟩ := List.mem_map.mp hop
        exact (hw.prepared r hr).1
      · rw [WalThreads.inProgress, hjob, ← List.append_assoc]
        exact List.prefix_append _ _
    · refine .inl ?_
      unfold WalThreads.inProgress
      split
      · rename_i batch hjob
        exact absurd ⟨batch,hjob⟩ hhead
      · rename_i batch bytes hjob
        exact absurd hjob (hnf batch bytes)
      · exact List.append_nil _

/-- What is left when the log is cut anywhere behind its ground. -/
theorem cut (h : Ground host s base before settled) {b : Bytes} (hpre : base.file <+: b)
    (hb : b <+: s.wal.file ++ s.inProgress) :
    ∃ extra : List Request, (∀ r ∈ extra, r ∈ s.outstanding) ∧
      FileShape host b (before ++ extra.map Request.op) ∧
      ∀ W j, Resumes host base.file before W j →
        Resumes host b (before ++ extra.map Request.op) W j := by
  have hshape := h.inv.agree.fileShape
  rcases h.span.2 with hsame | ⟨batch,hout,hadm,hok,hroom,hspan⟩
  · have hbase : b = base.file := by
      rw [hsame] at hb
      exact (hpre.eq_of_length_le hb.length_le).symm
    exact ⟨[], by simp, by simpa [hbase] using hshape, by simp [hbase]⟩
  · obtain ⟨x,rfl⟩ := hpre
    have hx : x <+: base.headerBytes ++
        framesFrom host base.portable base.nextSequence (batch.map Request.op) :=
      (List.prefix_append_right_inj _).mp (hb.trans hspan)
    obtain ⟨k,hk,hres⟩ := h.inv.torn hadm hok (fun _ => hroom) x.length
    rw [← List.prefix_iff_eq_take.mp hx, ← List.map_take] at hk
    rw [← List.prefix_iff_eq_take.mp hx, ← List.map_take] at hres
    exact ⟨batch.take k, fun r hr => hout r (List.mem_of_mem_take hr), hk, hres⟩

/-- After a crash of the process. -/
theorem crash (h : Ground host s base before settled) {b : Bytes} (hb : s.CrashFile b) :
    ∃ extra : List Request, (∀ r ∈ extra, r ∈ s.outstanding) ∧
      FileShape host b (before ++ extra.map Request.op) ∧
      ∀ W j, Resumes host base.file before W j →
        Resumes host b (before ++ extra.map Request.op) W j := by
  obtain ⟨⟨n,rfl⟩,-⟩ := hb
  refine h.cut (h.span.1.trans (List.prefix_append _ _)) ?_
  exact (List.prefix_append_right_inj _).mpr (List.take_prefix _ _)

/-- After a power loss that reverts no truncation. -/
theorem powerLoss (h : Ground host s base before settled) (hpol : s.wal.policy ≠ .buffered)
    {b : Bytes} (hb : b <+: s.wal.file ++ s.inProgress) (hlen : s.syncedLength ≤ b.length) :
    ∃ extra : List Request, (∀ r ∈ extra, r ∈ s.outstanding) ∧
      FileShape host b (before ++ extra.map Request.op) ∧
      ∀ W j, Resumes host base.file before W j →
        Resumes host b (before ++ extra.map Request.op) W j := by
  refine h.cut ?_ hb
  refine List.prefix_of_prefix_length_le (h.span.1.trans (List.prefix_append _ s.inProgress)) hb ?_
  rw [← h.synced hpol]
  exact hlen

end Ground

end ConcurrentKV

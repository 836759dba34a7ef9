import ConcurrentKV.WalRequests

/-! Group commit: whatever the interleaving and the cut points, the file is the one the
buffered policy writes, and every request is completed once, after its sync. -/
namespace ConcurrentKV
open ByteCodec OpLog Transition

/-- The object after the same operations, one by one, under the buffered policy. -/
def bufferedLog (host : ByteOrder) (wal : WriteAheadLog) (ops : List WalRecord) : WriteAheadLog :=
  ops.foldl (fun wal op => (wal.append host op).2) { wal with policy := .buffered }

theorem WalInv.withPolicy {host : ByteOrder} {wal : WriteAheadLog} {ops : List WalRecord}
    (h : WalInv host wal ops) (policy : DurabilityPolicy) :
    WalInv host { wal with policy := policy } ops := by
  refine ⟨h.outputOpen, h.noFailure, ?_⟩
  cases h.agree with
  | fresh => exact .fresh ‹_› ‹_› ‹_› ‹_› ‹_› ‹_› ‹_› ‹_›
  | v3 _ tail => exact .v3 ops tail ‹_› ‹_› ‹_› ‹_› ‹_› ‹_› ‹_› ‹_› ‹_› ‹_› ‹_›
  | v2 _ tail => exact .v2 ops tail ‹_› ‹_› ‹_› ‹_› ‹_› ‹_› ‹_› ‹_› ‹_› ‹_›
  | badHeader => exact .badHeader ‹_› ‹_› ‹_› ‹_› ‹_› ‹_› ‹_› ‹_› ‹_›

/-- Appending one by one gives the same object as one batch. -/
theorem foldl_append_eq {host : ByteOrder} {wal : WriteAheadLog} {ops : List WalRecord}
    (h : WalInv host wal ops) (hadm : wal.appendCheck = .ok ()) {new : List WalRecord}
    (hok : ∀ op ∈ new, RecordOk wal.portable op) (hn : ops.length+new.length < kMaxUint64) :
    new.foldl (fun wal op => (wal.append host op).2) wal = written host wal new := by
  induction new generalizing wal ops with
  | nil => rfl
  | cons op new ih =>
    rw [List.length_cons] at hn
    obtain ⟨happ,hinv⟩ := h.append_acknowledged hadm (hok op List.mem_cons_self) (by omega)
    have hi := ih hinv hadm (fun o ho => hok o (List.mem_cons_of_mem _ ho))
      (by rw [List.length_append, List.length_singleton]; omega)
    have hone : wal.appended host [op] = written host wal [op] := rfl
    rw [List.foldl_cons, happ, hi, hone, written_append]
    rfl

theorem bufferedLog_file {host : ByteOrder} {wal : WriteAheadLog} {ops : List WalRecord}
    (h : WalInv host wal ops) {new : List WalRecord} (hadm : new ≠ [] → wal.appendCheck = .ok ())
    (hok : ∀ op ∈ new, RecordOk wal.portable op) (hn : ops.length+new.length < kMaxUint64) :
    (bufferedLog host wal new).file = (written host wal new).file := by
  rcases eq_or_ne new [] with rfl | hne
  · rfl
  · rw [bufferedLog, foldl_append_eq (h.withPolicy .buffered) (hadm hne) hok hn]
    simp only [written, if_neg hne]
    rfl

/-! ### The protocol -/

/-- The state of the protocol relative to the object `wal` it started from. -/
structure GroupInv (host : ByteOrder) (wal : WriteAheadLog) (ops : List WalRecord)
    (s : WalThreads) : Prop where
  log : LogInv host s (ops ++ s.history.map Request.op)
  policy : s.wal.policy = .groupCommit
  maxBatch : s.wal.maxBatch = wal.maxBatch
  noTruncation : s.truncating = none
  histogram : s.batchHistogram.length = wal.maxBatch+1
  admitted : s.history ≠ [] → wal.appendCheck = .ok ()
  object : match s.job with
    | some ⟨batch, .frames bytes⟩ =>
      s.wal = midWrite host (written host wal (s.history.map Request.op)) (batch.map Request.op) ∧
      bytes = framesFrom host (written host wal (s.history.map Request.op)).portable
        (written host wal (s.history.map Request.op)).nextSequence (batch.map Request.op)
    | _ => s.wal = written host wal (s.history.map Request.op)
  order : s.enqueued = s.history ++ (s.unwritten ++ s.queue)
  completed : ∃ done, s.history = done ++ s.uncompleted ∧
    s.acknowledged = done.map Request.id ∧
    (written host wal (done.map Request.op)).file.length ≤ s.syncedLength
  exited : s.exited = true → s.stopping = true ∧ s.job = none ∧ s.queue = []

namespace GroupInv

variable {host : ByteOrder} {wal : WriteAheadLog} {ops : List WalRecord} {s t : WalThreads}

/-- The writer is there while it has a batch. -/
theorem running (h : GroupInv host wal ops s) {job : Job} (hjob : s.job = some job) :
    s.exited ≠ true := by
  intro he
  have := (h.exited he).2.1
  rw [hjob] at this
  cases this

theorem admitted_of_frames (h : GroupInv host wal ops s) {batch : List Request} {bytes : Bytes}
    (hjob : s.job = some ⟨batch, .frames bytes⟩) : wal.appendCheck = .ok () := by
  have hw := h.log.writing
  have hobj := h.object
  rw [Writing, hjob] at hw
  rw [hjob] at hobj
  obtain ⟨base,hd,hwal,-⟩ := hw
  have he := congrArg WriteAheadLog.appendCheck (hobj.1.symm.trans hwal)
  rw [midWrite_appendCheck, midWrite_appendCheck, written_appendCheck] at he
  exact he.trans hd.admitted

theorem step {l : WalLabel} (h : GroupInv host wal ops s) (hl : l.isAppend = true)
    (hstep : s.step host l = some t) : GroupInv host wal ops t := by
  obtain ⟨new,hnew,hlog,-⟩ := h.log.step hl hstep
  rw [List.append_assoc, ← List.map_append, ← hnew] at hlog
  have hw := h.log.writing
  have hobj := h.object
  have hord := h.order
  obtain ⟨done,hdone,hack,hsync⟩ := h.completed
  cases WalThreads.steps_of_step hstep with
  | prepareError op e | refuse id r e =>
    exact { h with
      log := hlog
      completed := ⟨done, hdone, by simpa [WalThreads.acknowledged] using hack, hsync⟩ }
  | prepare op frame => exact { h with log := hlog }
  | enqueue id r hr _ _ hrun =>
    refine { h with log := hlog, order := ?_, exited := fun he => ?_ }
    · simp only [hord, List.append_assoc]
      rfl
    · rw [hrun] at he
      cases he
  | enter id r hr hne => exact absurd h.policy hne
  | cut _ hjob hrun =>
    rw [hjob] at hobj
    have hparts := WalThreads.cutBatch_append s.wal.maxBatch s.queue [] 0
    refine { h with
      log := hlog
      object := hobj
      order := ?_
      completed := ⟨done, ?_, hack, hsync⟩
      exited := fun he => ?_ }
    · rw [WalThreads.unwritten, hparts, hord, WalThreads.unwritten, hjob]
    · rw [hdone, WalThreads.uncompleted, hjob]
      rfl
    · rw [hrun] at he
      cases he
  | lockIo batch hjob =>
    rw [hjob] at hobj
    refine { h with
      log := hlog
      object := hobj
      order := ?_
      completed := ⟨done, ?_, hack, hsync⟩
      exited := fun he => absurd he (h.running hjob) }
    · rw [hord, WalThreads.unwritten, hjob]
      rfl
    · rw [hdone, WalThreads.uncompleted, hjob]
      rfl
  | writeHeader batch bytes wal' hjob hfits hfin =>
    rw [h.log.finalize hjob] at hfin
    obtain ⟨rfl,rfl⟩ := Prod.mk.inj (Except.ok.inj hfin)
    rw [hjob] at hobj
    refine { h with
      log := hlog
      object := ⟨by rw [hobj], by rw [hobj]⟩
      order := ?_
      completed := ⟨done, ?_, hack, hsync⟩
      exited := fun he => absurd he (h.running hjob) }
    · rw [hord, WalThreads.unwritten, hjob]
      rfl
    · rw [hdone, WalThreads.uncompleted, hjob]
      rfl
  | exhausted batch e hjob hfin =>
    rw [h.log.finalize hjob] at hfin
    cases hfin
  | writeFrames batch bytes hjob hfits =>
    rw [Writing, hjob] at hw
    rw [hjob] at hobj
    obtain ⟨base,hd,hwal,-⟩ := hw
    have hadm := h.admitted_of_frames hjob
    refine { h with
      log := hlog
      admitted := fun _ => hadm
      object := ?_
      order := ?_
      completed := ⟨done, ?_, hack, hsync⟩
      exited := fun he => absurd he (h.running hjob) }
    · have hne : batch.map Request.op ≠ [] := by simpa using hd.limits.ne_nil
      have hcat := written_append host wal (s.history.map Request.op) (batch.map Request.op)
      rw [written, if_neg hne] at hcat
      dsimp only
      rw [List.map_append, ← hcat, hobj.1, hobj.2]
      simp [midWrite, WriteAheadLog.appended]
    · rw [hord, WalThreads.unwritten, hjob, WalThreads.unwritten, List.append_assoc]
      rfl
    · rw [hdone, WalThreads.uncompleted, hjob, WalThreads.uncompleted, List.append_nil]
  | sync batch hjob hpol =>
    rw [hjob] at hobj
    have hdone' : s.history = done ++ batch := by rw [hdone, WalThreads.uncompleted, hjob]
    refine { h with
      log := hlog
      object := hobj
      order := ?_
      completed := ⟨done, hdone', hack, ?_⟩
      exited := fun he => absurd he (h.running hjob) }
    · rw [hord, WalThreads.unwritten, hjob]
      rfl
    · rw [hobj, hdone', List.map_append]
      exact (written_isPrefix host wal _ _).length_le
  | finishBuffered batch hjob hpol =>
    rw [h.policy] at hpol
    cases hpol
  | finish batch hjob =>
    rw [hjob] at hobj
    have hgc : WalThreads.finishJob { s with
        batchHistogram := s.batchHistogram.modify batch.length (·+1) } batch = { s with
        batchHistogram := s.batchHistogram.modify batch.length (·+1)
        job := some ⟨batch, .completing none⟩ } := if_pos h.policy
    rw [hgc] at hlog ⊢
    refine { h with
      log := hlog
      histogram := by simpa using h.histogram
      object := hobj
      order := ?_
      completed := ⟨done, ?_, hack, hsync⟩
      exited := fun he => absurd he (h.running hjob) }
    · rw [hord, WalThreads.unwritten, hjob]
      rfl
    · rw [hdone, WalThreads.uncompleted, hjob]
      rfl
  | complete r batch error hjob =>
    rw [Writing, hjob] at hw
    rw [hjob] at hobj
    cases error with
    | some e => exact hw.elim
    | none =>
      have hdone' : s.history = (done ++ [r]) ++ batch := by
        rw [hdone, WalThreads.uncompleted, hjob, List.append_assoc]
        rfl
      refine { h with
        log := hlog
        object := hobj
        order := ?_
        completed := ⟨done ++ [r], hdone', ?_, ?_⟩
        exited := fun he => absurd he (h.running hjob) }
      · rw [hord, WalThreads.unwritten, hjob]
        rfl
      · simpa [WalThreads.acknowledged] using hack
      · have hst := hw.1.stable (by rw [h.policy]; decide)
        rw [hst]
        conv_rhs => rw [hobj, hdone', List.map_append]
        exact (written_isPrefix host wal _ _).length_le
  | next error hjob =>
    rw [Writing, hjob] at hw
    rw [hjob] at hobj
    cases error with
    | some e => exact hw.elim
    | none =>
      refine { h with
        log := hlog
        object := hobj
        order := ?_
        completed := ⟨done, ?_, hack, hsync⟩
        exited := fun he => absurd (by simpa using he) (h.running hjob) }
      · rw [hord, WalThreads.unwritten, hjob]
        rfl
      · rw [hdone, WalThreads.uncompleted, hjob]
        rfl
  | failWrite | clear | clearSync | truncateTo => cases hl
  | drain batch e hjob =>
    rw [Writing, hjob] at hw
    exact hw.elim
  | stop => exact { h with log := hlog, exited := fun he => ⟨rfl, (h.exited he).2⟩ }
  | exit hpol hjob hq hstop => exact { h with log := hlog, exited := fun _ => ⟨hstop,hjob,hq⟩ }
  | resetStats =>
    exact { h with log := hlog, histogram := by simpa using h.maxBatch }

end GroupInv

/-! ### Progress -/

/-- Labels of the writer thread on its way to the next batch. -/
def WalLabel.isWriter : WalLabel → Bool
  | .cut | .lockIo | .writeHeader | .writeFrames | .sync | .finish | .complete | .next => true
  | _ => false

namespace WalThreads

/-- The system can hold everything accepted so far. -/
def HasRoom (s : WalThreads) : Prop :=
  s.wal.file.length+s.wal.headerBytes.length+
    ((s.unwritten ++ s.queue).map (fun r => r.frame.length)).sum ≤ kMaxStreamoff

/-- An upper bound for the steps the writer still has to make. -/
def work (s : WalThreads) : ℕ :=
  9*s.queue.length+(match s.job with
    | none => 0
    | some ⟨batch, .taken⟩ => batch.length+7
    | some ⟨batch, .header⟩ => batch.length+6
    | some ⟨batch, .frames _⟩ => batch.length+5
    | some ⟨batch, .flushed⟩ => batch.length+4
    | some ⟨batch, .synced⟩ => batch.length+3
    | some ⟨batch, _⟩ => batch.length+1)

end WalThreads

/-- Finalising a frame does not change its length. -/
theorem length_framesFrom_prepared {host : ByteOrder} {portable : Bool} {batch : List Request}
    (n : ℕ) (h : ∀ r ∈ batch, Prepared host portable r) :
    (framesFrom host portable n (batch.map Request.op)).length =
      (batch.map (fun r => r.frame.length)).sum := by
  induction batch generalizing n with
  | nil => rfl
  | cons r batch ih =>
    have hr := (h r List.mem_cons_self).2
    have hi := ih (n+1) (fun r hr => h r (List.mem_cons_of_mem _ hr))
    simp only [List.map_cons, framesFrom, List.length_append, length_frameBytes, hi, List.sum_cons,
      hr, length_preparedFrame]

namespace GroupInv

variable {host : ByteOrder} {wal : WriteAheadLog} {ops : List WalRecord} {s t : WalThreads}

/-- The writer can always take another step, and takes it closer to the end. -/
theorem writer_step (h : GroupInv host wal ops s) (hroom : s.HasRoom) (hexit : s.exited = false)
    (hbusy : s.queue ≠ [] ∨ s.job ≠ none) :
    ∃ l t, l.isWriter = true ∧ s.step host l = some t ∧ t.HasRoom ∧ t.exited = false ∧
      t.work < s.work ∧ t.enqueued = s.enqueued := by
  have hw := h.log.writing
  have hfree (hio : ∀ job, s.job = some job → job.phase.holdsIo = false) : s.ioFree = true := by
    rw [WalThreads.ioFree, h.noTruncation]
    cases hj : s.job with
    | none => rfl
    | some job => simp [hio job hj]
  unfold WalThreads.HasRoom at hroom
  rcases hj : s.job with _ | ⟨batch,phase⟩
  · have hq : s.queue ≠ [] := hbusy.resolve_right (fun hne => hne hj)
    have hparts := WalThreads.cutBatch_append s.wal.maxBatch s.queue [] 0
    have hne := (cutBatch_ok h.log.maxBatch.1 s.queue []
      (fun r hr => (h.log.waiting r (List.mem_append_right _ hr)).frame_le) (.inr hq)
      (Nat.zero_le _) (Nat.zero_le _)).ne_nil
    refine ⟨.cut, _, rfl, if_pos ⟨h.policy,hj,hexit,hq⟩, ?_, hexit, ?_, rfl⟩
    · simp only [WalThreads.unwritten, hj, List.nil_append] at hroom
      simpa only [WalThreads.HasRoom, WalThreads.unwritten, hparts, List.nil_append] using hroom
    · have hlen := congrArg List.length hparts
      have hpos := List.length_pos_of_ne_nil hne
      simp only [List.map_nil, List.sum_nil, List.nil_append, List.length_append] at hlen hpos
      simp only [WalThreads.work, hj]
      omega
  rw [Writing, hj] at hw
  simp only [WalThreads.unwritten, hj] at hroom
  cases phase with
  | taken =>
    have hio := hfree (fun job hjob => by rw [hj] at hjob; rw [← Option.some.inj hjob]; rfl)
    refine ⟨.lockIo, { s with job := some ⟨batch, .header⟩ }, rfl, ?_, hroom, hexit, ?_, rfl⟩
    · simp only [WalThreads.step, hj, hio, if_true]
    · simp [WalThreads.work, hj]
  | header =>
    have hfits : s.fits s.wal.headerBytes := by
      rw [WalThreads.fits]
      omega
    have hopen : s.wal.headerBytes = [] ∨ s.wal.outputOpen = true := .inr hw.rest.inv.outputOpen
    refine ⟨.writeHeader, { s with
      wal := midWrite host s.wal (batch.map Request.op)
      job := some ⟨batch, .frames (framesFrom host s.wal.portable s.wal.nextSequence
        (batch.map Request.op))⟩ }, rfl, ?_, ?_, hexit, ?_, rfl⟩
    · simp only [WalThreads.step, hj, h.log.finalize hj, if_pos (And.intro hopen hfits)]
    · simp only [WalThreads.HasRoom, WalThreads.unwritten, midWrite_headerBytes, midWrite_file,
        List.length_append, List.length_nil]
      omega
    · simp [WalThreads.work, hj]
  | frames bytes =>
    obtain ⟨base,hd,hwal,hbytes⟩ := hw
    have hopen : s.wal.outputOpen = true := by
      rw [hwal]
      exact hd.rest.inv.outputOpen
    have hlen : bytes.length = (batch.map (fun r => r.frame.length)).sum := by
      rw [hbytes]
      exact length_framesFrom_prepared base.nextSequence hd.prepared
    simp only [List.map_append, List.sum_append] at hroom
    have hfits : s.fits bytes := by
      rw [WalThreads.fits, hlen]
      omega
    refine ⟨.writeFrames, { s with
      wal := { s.wal with file := s.wal.file ++ bytes }
      job := some ⟨batch, .flushed⟩
      history := s.history ++ batch }, rfl, ?_, ?_, hexit, ?_, rfl⟩
    · simp only [WalThreads.step, hj, if_pos (And.intro hopen hfits)]
    · have hh : WriteAheadLog.headerBytes { s.wal with file := s.wal.file ++ bytes } =
          s.wal.headerBytes := rfl
      simp only [WalThreads.HasRoom, WalThreads.unwritten, hh, List.length_append, hlen,
        List.nil_append]
      omega
    · simp [WalThreads.work, hj]
  | flushed =>
    have hpol : s.wal.policy ≠ .buffered := by rw [h.policy]; decide
    refine ⟨.sync, { s with syncedLength := s.wal.file.length, job := some ⟨batch, .synced⟩ }, rfl,
      ?_, hroom, hexit, ?_, rfl⟩
    · simp only [WalThreads.step, hj, if_pos hpol]
    · simp [WalThreads.work, hj]
  | synced =>
    refine ⟨.finish, { s with
      batchHistogram := s.batchHistogram.modify batch.length (·+1)
      job := some ⟨batch, .completing none⟩ }, rfl, ?_, hroom, hexit, ?_, rfl⟩
    · simp only [WalThreads.step, hj, WalThreads.finishJob, h.policy, if_true]
    · simp [WalThreads.work, hj]
  | failing e => exact hw.elim
  | completing error =>
    cases error with
    | some e => exact hw.elim
    | none =>
      cases batch with
      | nil =>
        refine ⟨.next, { s with job := none, exited := s.exited || false }, rfl, ?_, hroom,
          by simpa using hexit, ?_, rfl⟩
        · simp only [WalThreads.step, hj, Option.isSome_none]
        · simp [WalThreads.work, hj]
      | cons r batch =>
        refine ⟨.complete, { s with
          job := some ⟨batch, .completing none⟩
          results := s.results ++ [(r.id, none)] }, rfl, ?_, hroom, hexit, ?_, rfl⟩
        · simp only [WalThreads.step, hj]
        · simp [WalThreads.work, hj]

/-- Left alone, the writer finishes everything that was accepted. -/
theorem writer_finishes (h : GroupInv host wal ops s) (hroom : s.HasRoom)
    (hexit : s.exited = false) :
    ∃ ls t, (∀ l ∈ ls, l.isWriter = true) ∧ run (WalThreads.step host) s ls = some t ∧
      t.queue = [] ∧ t.job = none ∧ t.enqueued = s.enqueued ∧ GroupInv host wal ops t := by
  -- induction on the work left
  induction hn : s.work using Nat.strong_induction_on generalizing s with
  | _ n ih =>
    by_cases hbusy : s.queue ≠ [] ∨ s.job ≠ none
    · obtain ⟨l,u,hl,hu,hroom',hexit',hwork,hen⟩ := h.writer_step hroom hexit hbusy
      have happ : l.isAppend = true := by cases l <;> first | rfl | cases hl
      obtain ⟨ls,t,hls,hrun,hq,hj,hen',hinv⟩ :=
        ih u.work (hn ▸ hwork) (h.step happ hu) hroom' hexit' rfl
      exact ⟨l :: ls, t, List.forall_mem_cons.mpr ⟨hl,hls⟩,
        run_cons_eq_some.mpr ⟨u,hu,hrun⟩, hq, hj, hen'.trans hen, hinv⟩
    · rw [not_or, not_ne_iff, not_ne_iff] at hbusy
      exact ⟨[], s, by simp, rfl, hbusy.1, hbusy.2, rfl, h⟩

/-- With nothing under way, every accepted request has been acknowledged. -/
theorem acknowledged_of_idle (h : GroupInv host wal ops s) (hq : s.queue = []) (hj : s.job = none) :
    s.acknowledged = s.enqueued.map Request.id := by
  obtain ⟨done,hdone,hack,-⟩ := h.completed
  rw [hack, h.order, hdone, hq]
  simp [WalThreads.unwritten, WalThreads.uncompleted, hj]

end GroupInv

/-- What the protocol promises in each state of a run that started with the object `wal`. -/
structure GroupCommitSound (host : ByteOrder) (wal : WriteAheadLog) (s : WalThreads) : Prop where
  /-- Every append has exactly one place: it is under way or it has one outcome. -/
  once : (s.results.map Prod.fst ++ s.outstanding.map Request.id).Nodup
  /-- The accepted requests in order: the acknowledged ones, the rest of the batch, the
  queue. Of the acknowledged ones the frames are in the file and covered by a sync. -/
  order : ∃ done, s.enqueued = done ++ (s.uncompleted ++ s.unwritten ++ s.queue) ∧
    s.acknowledged = done.map Request.id ∧ s.history = done ++ s.uncompleted ∧
    (bufferedLog host wal (done.map Request.op)).file <+: s.wal.file ∧
    (bufferedLog host wal (done.map Request.op)).file.length ≤ s.syncedLength
  /-- The file is what the buffered policy writes, but for a header that is just ahead
  of its frames. -/
  file : s.wal.file = (bufferedLog host wal (s.history.map Request.op)).file ∨
    ∃ batch bytes, s.job = some ⟨batch, .frames bytes⟩ ∧
      s.wal.file ++ bytes = (bufferedLog host wal ((s.history ++ batch).map Request.op)).file
  limits : ∀ batch phase, s.job = some ⟨batch, phase⟩ → (∀ e, phase ≠ .completing e) →
    BatchOk wal.maxBatch batch ∧ batch.length < s.batchHistogram.length
  exits : s.exited = true → s.stopping = true ∧ s.queue = [] ∧ s.job = none
  completes : s.exited = false → s.HasRoom → ∃ ls t, (∀ l ∈ ls, l.isWriter = true) ∧
    run (WalThreads.step host) s ls = some t ∧ t.enqueued = s.enqueued ∧
    t.acknowledged = s.enqueued.map Request.id

namespace GroupInv

variable {host : ByteOrder} {wal : WriteAheadLog} {ops : List WalRecord} {s : WalThreads}

theorem start (h : WalInv host wal ops) (hpol : wal.policy = .groupCommit)
    (hmax : 1 ≤ wal.maxBatch ∧ wal.maxBatch ≤ 4096) (hroom : wal.file.length ≤ kMaxStreamoff) :
    GroupInv host wal ops (WalThreads.start wal) where
  log := ⟨⟨by simpa [WalThreads.start] using h, fun _ => rfl⟩, by simp [WalThreads.start],
    fun hq => absurd rfl hq, hmax, hroom⟩
  policy := hpol
  maxBatch := rfl
  noTruncation := rfl
  histogram := by simp [WalThreads.start]
  admitted := fun hne => absurd rfl hne
  object := rfl
  order := rfl
  completed := ⟨[], rfl, rfl, le_rfl⟩
  exited := fun he => by cases he

theorem portable_eq (h : GroupInv host wal ops s) : s.wal.portable = wal.portable := by
  have hwritten (new : List WalRecord) : (written host wal new).portable = wal.portable := by
    unfold written
    split
    · rfl
    · rfl
  have hobj := h.object
  split at hobj
  · rw [hobj.1]
    exact hwritten _
  · rw [hobj]
    exact hwritten _

/-- Anything written so far, or about to be, agrees with the buffered policy. -/
theorem bufferedLog_written (h : GroupInv host wal ops s) (h0 : WalInv host wal ops)
    (new : List Request) (hadm : new ≠ [] → wal.appendCheck = .ok ())
    (hok : ∀ op ∈ new.map Request.op, RecordOk s.wal.portable op)
    (hn : new.length ≤ s.history.length+4096) :
    (bufferedLog host wal (new.map Request.op)).file =
      (written host wal (new.map Request.op)).file := by
  have hfew := h.log.ops_ok.2
  rw [List.length_append, List.length_map] at hfew
  refine bufferedLog_file h0 (fun hne => hadm (by simpa using hne)) (h.portable_eq ▸ hok) ?_
  rw [List.length_map]
  simp only [kMaxStreamoff, kMaxUint64] at hfew ⊢
  omega

theorem sound (h : GroupInv host wal ops s) (h0 : WalInv host wal ops)
    (hids : s.ids.Perm (List.range s.nextId)) : GroupCommitSound host wal s := by
  have hhist : ∀ op ∈ s.history.map Request.op, RecordOk s.wal.portable op :=
    fun op hop => h.log.ops_ok.1 op (List.mem_append_right _ hop)
  have hbuf := h.bufferedLog_written h0 s.history h.admitted hhist (Nat.le_add_right _ _)
  have hobj := h.object
  have hw := h.log.writing
  have hmax := h.maxBatch
  obtain ⟨done,hdone,hack,hsync⟩ := h.completed
  refine ⟨?_, ⟨done, ?_, hack, hdone, ?_⟩, ?_, ?_, ?_, ?_⟩
  · exact hids.nodup_iff.mpr List.nodup_range
  · rw [h.order, hdone]
    simp only [List.append_assoc]
  · have hpart := h.bufferedLog_written h0 done
      (fun hne => h.admitted (by rw [hdone]; simp [hne]))
      (fun op hop => hhist op (by rw [hdone, List.map_append]; exact List.mem_append_left _ hop))
      (by rw [hdone, List.length_append]; omega)
    rw [hpart]
    refine ⟨?_, hsync⟩
    have hpre := written_isPrefix host wal (done.map Request.op) (s.uncompleted.map Request.op)
    rw [← List.map_append, ← hdone] at hpre
    split at hobj
    · rw [hobj.1, midWrite_file]
      exact hpre.trans (List.prefix_append _ _)
    · rw [hobj]
      exact hpre
  · rw [hbuf]
    cases hj : s.job with
    | none =>
      rw [hj] at hobj
      exact .inl (by rw [hobj])
    | some job =>
      obtain ⟨batch,phase⟩ := job
      cases phase with
      | frames bytes =>
        rw [Writing, hj] at hw
        rw [hj] at hobj
        obtain ⟨base,hd,hwal,-⟩ := hw
        have hp : s.wal.portable = base.portable := by
          rw [hwal]
          rfl
        have hadm := h.admitted_of_frames hj
        have hlen : batch.length ≤ 4096 := by
          have hle : base.maxBatch = s.wal.maxBatch := by
            rw [hwal]
            rfl
          exact hd.limits.length_le.trans (hle ▸ h.log.maxBatch.2)
        have hcat := written_append host wal (s.history.map Request.op) (batch.map Request.op)
        have hne : batch.map Request.op ≠ [] := by simpa using hd.limits.ne_nil
        refine .inr ⟨batch, bytes, rfl, ?_⟩
        rw [h.bufferedLog_written h0 _ (fun _ => hadm) ?_ (by rw [List.length_append]; omega),
          List.map_append, ← hcat, written, if_neg hne, hobj.1, hobj.2]
        · simp [WriteAheadLog.appended]
        · rw [List.map_append]
          exact List.forall_mem_append.mpr ⟨hhist, hp ▸ hd.ok⟩
      | _ =>
        rw [hj] at hobj
        exact .inl (by rw [hobj])
  · intro batch phase hj hne
    have hb : BatchOk wal.maxBatch batch := by
      rw [Writing, hj] at hw
      rw [← hmax]
      cases phase with
      | taken | header => exact hw.limits
      | frames bytes =>
        obtain ⟨base,hd,hwal,-⟩ := hw
        rw [hwal]
        exact hd.limits
      | flushed =>
        obtain ⟨base,before,hd,hwal,-⟩ := hw
        rw [hwal]
        exact hd.limits
      | synced => exact hw.2.2
      | failing e => exact hw.elim
      | completing e => exact absurd rfl (hne e)
    refine ⟨hb, ?_⟩
    rw [h.histogram]
    exact Nat.lt_succ_of_le hb.length_le
  · exact fun he => ⟨(h.exited he).1, (h.exited he).2.2, (h.exited he).2.1⟩
  · intro hexit hroom
    obtain ⟨ls,t,hls,hrun,hq,hj,hen,ht⟩ := h.writer_finishes hroom hexit
    exact ⟨ls, t, hls, hrun, hen, by rw [ht.acknowledged_of_idle hq hj, hen]⟩

end GroupInv

/-- Group commit is buffered appending in enqueue order, with one sync for each batch. For
any callers, interleaving and cut points, every accepted request is completed once, after
a sync that covers it, and the writer leaves only an empty queue. -/
theorem group_commit_protocol (host : ByteOrder) (b : Bytes) (maxBatch : ℕ) (wal : WriteAheadLog)
    (hb : b.length ≤ kMaxStreamoff) (hopen : openWal host b .groupCommit maxBatch = .ok wal)
    (ls : List WalLabel) (s : WalThreads) (hls : ∀ l ∈ ls, l.isAppend = true)
    (hrun : run (WalThreads.step host) (WalThreads.start wal) ls = some s) :
    GroupCommitSound host wal s := by
  obtain ⟨ops,hinv,hfile,hpol,hmax,-⟩ := openWal_sound hopen
  have hstart := GroupInv.start hinv hpol (hmax ▸ openWal_maxBatch hopen) (hfile ▸ hb)
  have hend := run_invariant
    (P := fun s => GroupInv host wal ops s ∧ s.ids.Perm (List.range s.nextId))
    (fun s l t hl hs ht => ⟨hs.1.step hl ht, WalThreads.step_ids hs.2 ht⟩) hls hrun
    ⟨hstart, List.Perm.refl _⟩
  exact hend.1.sound hinv hend.2

/-- Two requests on a new log, the second one first in the queue, in one batch. -/
def batchOfTwo : List WalLabel :=
  [.prepare (.set [1] [2]), .prepare (.delete [3]), .submit 1, .submit 0, .cut, .lockIo,
    .writeHeader, .writeFrames, .sync, .finish, .complete, .complete, .next]

theorem group_commit_batch_of_two :
    ∃ s, run (WalThreads.step .little)
        (WalThreads.start
          { file := [], policy := .groupCommit, maxBatch := 2, headerPending := true })
        batchOfTwo = some s ∧ s.acknowledged = [1,0] ∧ s.batchHistogram = [0,0,1] ∧
      s.history.map Request.op = [.delete [3], .set [1] [2]] ∧
      GroupCommitSound .little
        { file := [], policy := .groupCommit, maxBatch := 2, headerPending := true } s := by
  have hrun : (run (WalThreads.step .little)
      (WalThreads.start
        { file := [], policy := .groupCommit, maxBatch := 2, headerPending := true })
      batchOfTwo).map (fun s => (s.acknowledged, s.batchHistogram, s.history.map Request.op)) =
        some ([1,0], [0,0,1], [.delete [3], .set [1] [2]]) := by decide +kernel
  obtain ⟨s,hs,hend⟩ := Option.map_eq_some_iff.mp hrun
  simp only [Prod.mk.injEq] at hend
  obtain ⟨hack,hhist,hops⟩ := hend
  exact ⟨s, hs, hack, hhist, hops,
    group_commit_protocol .little [] 2 _ (Nat.zero_le _) rfl _ s (by decide) hs⟩

end ConcurrentKV

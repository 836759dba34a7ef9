import ConcurrentKV.WalThreads

/-! While no append fails, the shared log always stands at a definite point of writing one
batch behind a well-formed file. -/
namespace ConcurrentKV
open ByteCodec OpLog Transition

/-- The frame is the one `PrepareFrame` makes in the current format. -/
def Prepared (host : ByteOrder) (portable : Bool) (r : Request) : Prop :=
  RecordOk portable r.op ∧ r.frame = WriteAheadLog.preparedFrame host portable r.op

/-- A batch within the limits of `WriterLoop`. -/
structure BatchOk (maxBatch : ℕ) (batch : List Request) : Prop where
  ne_nil : batch ≠ []
  length_le : batch.length ≤ maxBatch
  bytes_le : (batch.map (fun r => r.frame.length)).sum ≤ kMaxBatchBytes

/-- The object between the header write and the frame write of a batch. -/
def midWrite (host : ByteOrder) (wal : WriteAheadLog) (ops : List WalRecord) : WriteAheadLog :=
  { wal.appended host ops with file := wal.file ++ wal.headerBytes }

@[simp] theorem midWrite_file (host : ByteOrder) (wal : WriteAheadLog) (ops : List WalRecord) :
    (midWrite host wal ops).file = wal.file ++ wal.headerBytes := rfl

@[simp] theorem midWrite_appendCheck (host : ByteOrder) (wal : WriteAheadLog)
    (ops : List WalRecord) :
    (midWrite host wal ops).appendCheck = wal.appendCheck := rfl

@[simp] theorem midWrite_headerBytes (host : ByteOrder) (wal : WriteAheadLog)
    (ops : List WalRecord) : (midWrite host wal ops).headerBytes = [] :=
  wal.appended_headerBytes host ops

/-- Everything up to the end of `b` is on stable storage, if the policy promises that. -/
def Stable (wal : WriteAheadLog) (syncedLength : ℕ) (b : Bytes) : Prop :=
  wal.policy ≠ .buffered → syncedLength = b.length

/-- Between batches. -/
structure AtRest (host : ByteOrder) (wal : WriteAheadLog) (syncedLength : ℕ)
    (ops : List WalRecord) : Prop where
  inv : WalInv host wal ops
  stable : Stable wal syncedLength wal.file

/-- A batch is about to be written. -/
structure BeforeWrite (host : ByteOrder) (wal : WriteAheadLog) (syncedLength : ℕ)
    (ops : List WalRecord) (batch : List Request) : Prop where
  rest : AtRest host wal syncedLength ops
  admitted : wal.appendCheck = .ok ()
  limits : BatchOk wal.maxBatch batch
  prepared : ∀ r ∈ batch, Prepared host wal.portable r

/-- A batch is being written behind the file of `base`, whose operations are `ops`. -/
structure DuringWrite (host : ByteOrder) (base : WriteAheadLog) (syncedLength : ℕ)
    (ops : List WalRecord) (batch : List Request) : Prop where
  rest : AtRest host base syncedLength ops
  admitted : base.appendCheck = .ok ()
  limits : BatchOk base.maxBatch batch
  prepared : ∀ r ∈ batch, Prepared host base.portable r
  room : ops.length+batch.length < 2^64

theorem DuringWrite.ok {host : ByteOrder} {base : WriteAheadLog} {n : ℕ} {ops : List WalRecord}
    {batch : List Request} (h : DuringWrite host base n ops batch) :
    ∀ op ∈ batch.map Request.op, RecordOk base.portable op := by
  intro op hop
  obtain ⟨r,hr,rfl⟩ := List.mem_map.mp hop
  exact (h.prepared r hr).1

/-- The file with the whole batch. -/
theorem DuringWrite.appended {host : ByteOrder} {base : WriteAheadLog} {n : ℕ}
    {ops : List WalRecord} {batch : List Request} (h : DuringWrite host base n ops batch) :
    WalInv host (base.appended host (batch.map Request.op)) (ops ++ batch.map Request.op) :=
  h.rest.inv.appended h.admitted h.ok (fun _ => by simpa using h.room)

/-- Where the writing of the current batch stands. The operations are those in the file. -/
def Writing (host : ByteOrder) (s : WalThreads) (ops : List WalRecord) : Prop :=
  match s.job with
  | none => AtRest host s.wal s.syncedLength ops
  | some ⟨batch, .taken⟩ => BeforeWrite host s.wal s.syncedLength ops batch
  | some ⟨batch, .header⟩ => BeforeWrite host s.wal s.syncedLength ops batch
  | some ⟨batch, .frames bytes⟩ => ∃ base, DuringWrite host base s.syncedLength ops batch ∧
      s.wal = midWrite host base (batch.map Request.op) ∧
      bytes = framesFrom host base.portable base.nextSequence (batch.map Request.op)
  | some ⟨batch, .flushed⟩ => ∃ base before, DuringWrite host base s.syncedLength before batch ∧
      s.wal = base.appended host (batch.map Request.op) ∧ ops = before ++ batch.map Request.op
  | some ⟨batch, .synced⟩ => AtRest host s.wal s.syncedLength ops ∧ s.wal.appendCheck = .ok () ∧
      BatchOk s.wal.maxBatch batch
  | some ⟨_, .completing none⟩ => AtRest host s.wal s.syncedLength ops ∧ s.wal.appendCheck = .ok ()
  | some ⟨_, .completing (some _)⟩ => False
  | some ⟨_, .failing _⟩ => False

/-- The shared log in a run without failed appends. -/
structure LogInv (host : ByteOrder) (s : WalThreads) (ops : List WalRecord) : Prop where
  writing : Writing host s ops
  waiting : ∀ r ∈ s.prepared ++ s.queue, Prepared host s.wal.portable r
  queued : s.queue ≠ [] → s.wal.appendCheck = .ok ()
  maxBatch : 1 ≤ s.wal.maxBatch ∧ s.wal.maxBatch ≤ 4096
  room : s.wal.file.length ≤ kMaxStreamoff

/-- Labels of appends that do not fail, and of calls that do not touch the file. -/
def WalLabel.isAppend : WalLabel → Bool
  | .fail _ _ | .clear | .clearSync | .truncateTo _ => false
  | _ => true

/-! ### Batches -/

theorem length_preparedFrame (host : ByteOrder) (portable : Bool) (op : WalRecord) :
    (WriteAheadLog.preparedFrame host portable op).length = 8+recordLength portable op := by
  cases portable <;> simp [WriteAheadLog.preparedFrame, recordLength]
  omega

theorem Prepared.frame_le {host : ByteOrder} {portable : Bool} {r : Request}
    (h : Prepared host portable r) : r.frame.length ≤ kMaxBatchBytes := by
  rw [h.2, length_preparedFrame]
  have := h.1.2
  simp only [kMaxBatchBytes]
  omega

/-- The writer takes at least one request. -/
theorem cutBatch_ne_nil {maxBatch : ℕ} (hmax : 1 ≤ maxBatch) (queue batch : List Request) (n : ℕ)
    (hne : batch ≠ [] ∨ queue ≠ []) : (cutBatch maxBatch queue batch n).1 ≠ [] := by
  induction queue generalizing batch n with
  | nil => simpa [cutBatch] using hne
  | cons r queue ih =>
    rw [cutBatch]
    split
    · exact ih _ _ (.inl (by simp))
    · rename_i hfull
      rintro rfl
      exact hfull ⟨Nat.lt_of_lt_of_le Nat.zero_lt_one hmax, by simp⟩

/-- The greedy cut stays within both limits; the first request always fits. -/
theorem cutBatch_ok {maxBatch : ℕ} (hmax : 1 ≤ maxBatch) (queue batch : List Request)
    (hq : ∀ r ∈ queue, r.frame.length ≤ kMaxBatchBytes) (hne : batch ≠ [] ∨ queue ≠ [])
    (hlen : batch.length ≤ maxBatch)
    (hsum : (batch.map (fun r => r.frame.length)).sum ≤ kMaxBatchBytes) :
    BatchOk maxBatch
      (cutBatch maxBatch queue batch (batch.map (fun r => r.frame.length)).sum).1 := by
  have hsome := cutBatch_ne_nil hmax queue batch (batch.map (fun r => r.frame.length)).sum hne
  suffices hfits :
      (cutBatch maxBatch queue batch (batch.map (fun r => r.frame.length)).sum).1.length ≤
        maxBatch ∧
      ((cutBatch maxBatch queue batch (batch.map (fun r => r.frame.length)).sum).1.map
        (fun r => r.frame.length)).sum ≤ kMaxBatchBytes from ⟨hsome, hfits.1, hfits.2⟩
  clear hsome hne
  induction queue generalizing batch with
  | nil => exact ⟨by simpa [cutBatch] using hlen, by simpa [cutBatch] using hsum⟩
  | cons r queue ih =>
    rw [cutBatch]
    split
    · rename_i hc
      have hfit : ((batch ++ [r]).map (fun r => r.frame.length)).sum ≤ kMaxBatchBytes := by
        rcases eq_or_ne batch [] with rfl | hb
        · simpa using hq r List.mem_cons_self
        · have hle : ¬(batch.map (fun r => r.frame.length)).sum+r.frame.length > kMaxBatchBytes :=
            fun hgt => hc.2 ⟨hb,hgt⟩
          simp only [List.map_append, List.sum_append, List.map_cons, List.map_nil, List.sum_cons,
            List.sum_nil]
          omega
      have hi := ih (batch ++ [r]) (fun r hr => hq r (List.mem_cons_of_mem _ hr))
        (by rw [List.length_append, List.length_singleton]; omega) hfit
      simpa using hi
    · exact ⟨hlen, hsum⟩

/-! ### Finalising -/

/-- Finalising a prepared batch right behind the header. -/
theorem finalizeFrames_midWrite (host : ByteOrder) (wal : WriteAheadLog) (ops : List WalRecord)
    (hn : wal.portable = true → wal.nextSequence+ops.length ≤ kMaxUint64) :
    wal.ensureHeaderLocked.finalizeFrames
        (ops.map (WriteAheadLog.preparedFrame host wal.portable)) =
      .ok (framesFrom host wal.portable wal.nextSequence ops, midWrite host wal ops) := by
  have hp : wal.ensureHeaderLocked.portable = wal.portable := by
    rw [WriteAheadLog.ensureHeaderLocked_eq]
    rfl
  have hseq : wal.ensureHeaderLocked.nextSequence = wal.nextSequence := by
    rw [WriteAheadLog.ensureHeaderLocked_eq]
  have hfin := WriteAheadLog.finalizeFrames_preparedFrames host wal.ensureHeaderLocked ops
    (by rwa [hp, hseq])
  rw [hp, hseq] at hfin
  rw [hfin, WriteAheadLog.ensureHeaderLocked_eq]
  rfl

theorem map_frame_of_prepared {host : ByteOrder} {portable : Bool} {batch : List Request}
    (h : ∀ r ∈ batch, Prepared host portable r) : batch.map Request.frame =
      (batch.map Request.op).map (WriteAheadLog.preparedFrame host portable) := by
  rw [List.map_map]
  exact List.map_congr_left fun r hr => (h r hr).2

theorem prepared_of_prepare {host : ByteOrder} {wal : WriteAheadLog} {op : WalRecord}
    {frame : Bytes}
    (id : ℕ) (h : wal.prepare host op = .ok frame) :
    Prepared host wal.portable ⟨id, op, frame⟩ := by
  by_cases hok : RecordOk wal.portable op
  · rw [wal.prepare_of_ok host hok] at h
    exact ⟨hok, (Except.ok.inj h).symm⟩
  · obtain ⟨e,he⟩ := wal.prepare_of_oversized host hok
    rw [h] at he
    cases he

/-! ### Steps -/

namespace LogInv

variable {host : ByteOrder} {s t : WalThreads} {ops : List WalRecord}

/-- A batch still has sequence numbers. -/
theorem sequence_room {wal : WriteAheadLog} (h : WalInv host wal ops)
    (hroom : wal.file.length ≤ kMaxStreamoff) {n : ℕ} (hn : n ≤ 4096) :
    wal.nextSequence+n ≤ kMaxUint64 ∧ ops.length+n < 2^64 := by
  have hlen := h.length_le
  have hseq := h.sequence_le
  simp only [kMaxStreamoff, kMaxUint64] at hroom ⊢
  omega

/-- The operations in the file are within the limits, and far fewer than 2^64. -/
theorem ops_ok (h : LogInv host s ops) :
    (∀ op ∈ ops, RecordOk s.wal.portable op) ∧ 13*ops.length ≤ kMaxStreamoff := by
  have hroom := h.room
  have hrest (hinv : WalInv host s.wal ops) :
      (∀ op ∈ ops, RecordOk s.wal.portable op) ∧ 13*ops.length ≤ kMaxStreamoff :=
    ⟨hinv.recordOk, hinv.length_le.trans hroom⟩
  have hw := h.writing
  unfold Writing at hw
  split at hw
  · exact hrest hw.inv
  · exact hrest hw.rest.inv
  · exact hrest hw.rest.inv
  · obtain ⟨base,hd,hwal,-⟩ := hw
    have hlen := hd.rest.inv.length_le
    have hfile : base.file.length ≤ s.wal.file.length := by
      rw [hwal, midWrite_file]
      simp
    have hp : s.wal.portable = base.portable := by
      rw [hwal]
      rfl
    rw [hp]
    exact ⟨hd.rest.inv.recordOk, by omega⟩
  · obtain ⟨base,before,hd,hwal,rfl⟩ := hw
    have hinv := hd.appended
    rw [← hwal] at hinv
    exact hrest hinv
  · exact hrest hw.1.inv
  · exact hrest hw.1.inv
  · exact hw.elim
  · exact hw.elim

/-- The header write of a batch finalises its frames; it never runs out of numbers. -/
theorem finalize (h : LogInv host s ops) {batch : List Request}
    (hjob : s.job = some ⟨batch, .header⟩) :
    s.wal.ensureHeaderLocked.finalizeFrames (batch.map Request.frame) =
      .ok (framesFrom host s.wal.portable s.wal.nextSequence (batch.map Request.op),
        midWrite host s.wal (batch.map Request.op)) := by
  have hw := h.writing
  rw [Writing, hjob] at hw
  obtain ⟨hseq,-⟩ := sequence_room hw.rest.inv h.room (hw.limits.length_le.trans h.maxBatch.2)
  rw [map_frame_of_prepared hw.prepared]
  exact finalizeFrames_midWrite host s.wal _ (fun _ => by simpa using hseq)

/-- One step of a run without failures. The log grows by the batch that is flushed. -/
theorem step {l : WalLabel} (h : LogInv host s ops) (hl : l.isAppend = true)
    (hstep : s.step host l = some t) :
    ∃ new, t.history = s.history ++ new ∧ LogInv host t (ops ++ new.map Request.op) ∧
      (new = [] ∨ ∃ bytes, s.job = some ⟨new, .frames bytes⟩) := by
  have hfinalize {batch : List Request} (hjob : s.job = some ⟨batch, .header⟩) := h.finalize hjob
  obtain ⟨hw,hwait,hq,hmax,hroom⟩ := h
  have hkeep (u : WalThreads) (hu : u.history = s.history) (hinv : LogInv host u ops) :
      ∃ new, u.history = s.history ++ new ∧ LogInv host u (ops ++ new.map Request.op) ∧
        (new = [] ∨ ∃ bytes, s.job = some ⟨new, .frames bytes⟩) :=
    ⟨[], by simpa using hu, by simpa using hinv, .inl rfl⟩
  have herase (r : Request) : ∀ x ∈ s.prepared.erase r ++ s.queue, Prepared host s.wal.portable x :=
    fun x hx => hwait x (by
      rcases List.mem_append.mp hx with hx | hx
      · exact List.mem_append_left _ (List.mem_of_mem_erase hx)
      · exact List.mem_append_right _ hx)
  cases WalThreads.steps_of_step hstep with
  | prepareError op e => exact hkeep _ rfl ⟨hw,hwait,hq,hmax,hroom⟩
  | prepare op frame hprep =>
    refine hkeep _ rfl ⟨hw, ?_, hq, hmax, hroom⟩
    intro r hr
    rw [List.append_assoc, List.mem_append] at hr
    rcases hr with hr | hr
    · exact hwait r (List.mem_append_left _ hr)
    · rcases List.mem_cons.mp hr with rfl | hr
      · exact prepared_of_prepare _ hprep
      · exact hwait r (List.mem_append_right _ hr)
  | refuse id r e hr => exact hkeep _ rfl ⟨hw, herase r, hq, hmax, hroom⟩
  | enqueue id r hr hpol hadm =>
    refine hkeep _ rfl ⟨hw, ?_, fun _ => hadm, hmax, hroom⟩
    intro x hx
    rw [← List.append_assoc, List.mem_append] at hx
    rcases hx with hx | hx
    · exact herase r x hx
    · obtain rfl := List.mem_singleton.mp hx
      exact hwait x (List.mem_append_left _ hr)
  | enter id r hr hpol hio hjob hadm =>
    rw [Writing, hjob] at hw
    have hprep := hwait r (List.mem_append_left _ hr)
    refine hkeep _ rfl ⟨⟨hw, hadm, ⟨by simp, by simpa using hmax.1, ?_⟩, by simpa using hprep⟩,
      herase r, hq, hmax, hroom⟩
    simpa using hprep.frame_le
  | cut hpol hjob hexit hne =>
    rw [Writing, hjob] at hw
    have hparts := WalThreads.cutBatch_append s.wal.maxBatch s.queue [] 0
    have hmem (r : Request) (hr : r ∈ (cutBatch s.wal.maxBatch s.queue [] 0).1 ∨
        r ∈ (cutBatch s.wal.maxBatch s.queue [] 0).2) : r ∈ s.queue := by
      rw [List.nil_append] at hparts
      rw [← hparts, List.mem_append]
      exact hr
    have hbatch := cutBatch_ok hmax.1 s.queue []
      (fun r hr => (hwait r (List.mem_append_right _ hr)).frame_le) (.inr hne) (Nat.zero_le _)
      (Nat.zero_le _)
    refine hkeep _ rfl ⟨⟨hw, hq hne, hbatch, fun r hr => hwait r (List.mem_append_right _
      (hmem r (.inl hr)))⟩, fun r hr => hwait r ?_, fun _ => hq hne, hmax, hroom⟩
    rcases List.mem_append.mp hr with hr | hr
    · exact List.mem_append_left _ hr
    · exact List.mem_append_right _ (hmem r (.inr hr))
  | lockIo batch hjob =>
    rw [Writing, hjob] at hw
    exact hkeep _ rfl ⟨hw,hwait,hq,hmax,hroom⟩
  | writeHeader batch bytes wal hjob hfits hfin =>
    rw [Writing, hjob] at hw
    obtain ⟨-,hlen⟩ := sequence_room hw.rest.inv hroom (hw.limits.length_le.trans hmax.2)
    rw [hfinalize hjob] at hfin
    obtain ⟨rfl,rfl⟩ := Prod.mk.inj (Except.ok.inj hfin)
    refine hkeep _ rfl ⟨⟨s.wal, ⟨hw.rest, hw.admitted, hw.limits, hw.prepared, hlen⟩, rfl, rfl⟩,
      hwait, hq, hmax, ?_⟩
    simpa [WalThreads.fits, midWrite] using hfits
  | exhausted batch e hjob hfin =>
    rw [hfinalize hjob] at hfin
    cases hfin
  | writeFrames batch bytes hjob hfits =>
    rw [Writing, hjob] at hw
    obtain ⟨base,hd,hwal,rfl⟩ := hw
    refine ⟨batch, rfl, ⟨⟨base, ops, hd, ?_, rfl⟩, hwait, hq, hmax, ?_⟩, .inr ⟨_,hjob⟩⟩
    · simp [hwal, midWrite, WriteAheadLog.appended]
    · simpa [WalThreads.fits] using hfits
  | sync batch hjob hpol =>
    rw [Writing, hjob] at hw
    obtain ⟨base,before,hd,hwal,rfl⟩ := hw
    have hinv := hd.appended
    rw [← hwal] at hinv
    refine hkeep _ rfl ⟨⟨⟨hinv, fun _ => rfl⟩, ?_, ?_⟩, hwait, hq, hmax, hroom⟩
    · rw [hwal]
      exact hd.admitted
    · rw [hwal]
      exact hd.limits
  | finishBuffered batch hjob hpol =>
    rw [Writing, hjob] at hw
    obtain ⟨base,before,hd,hwal,rfl⟩ := hw
    have hinv := hd.appended
    rw [← hwal] at hinv
    rw [WalThreads.finishJob, if_neg (by rw [hpol]; decide)]
    exact hkeep _ rfl ⟨⟨hinv, fun hne => absurd hpol hne⟩, hwait, hq, hmax, hroom⟩
  | finish batch hjob =>
    rw [Writing, hjob] at hw
    unfold WalThreads.finishJob
    split
    · exact hkeep _ rfl ⟨⟨hw.1,hw.2.1⟩, hwait, hq, hmax, hroom⟩
    · exact hkeep _ rfl ⟨hw.1, hwait, hq, hmax, hroom⟩
  | complete r batch error hjob =>
    rw [Writing, hjob] at hw
    cases error with
    | some e => exact hw.elim
    | none => exact hkeep _ rfl ⟨hw, hwait, hq, hmax, hroom⟩
  | next error hjob =>
    rw [Writing, hjob] at hw
    cases error with
    | some e => exact hw.elim
    | none => exact hkeep _ rfl ⟨hw.1, hwait, hq, hmax, hroom⟩
  | failWrite | clear | clearSync | truncateTo => cases hl
  | drain batch e hjob =>
    rw [Writing, hjob] at hw
    exact hw.elim
  | stop | exit | resetStats => exact hkeep _ rfl ⟨hw,hwait,hq,hmax,hroom⟩

end LogInv

end ConcurrentKV

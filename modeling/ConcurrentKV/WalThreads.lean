import ConcurrentKV.WalInvariant
import ConcurrentKV.Transition

/-! The log shared by threads: callers, the group-commit writer and truncations, step by
step between lock acquisitions. A step that a lock or a wait would block is not enabled. -/
namespace ConcurrentKV
open ByteCodec OpLog Transition

/-- One append, with the frame `PrepareFrame` made for it. Under group commit this is
the `Pending` object; its `op` is only there to say what the frame is for. -/
structure Request where
  id : ℕ
  op : WalRecord
  frame : Bytes
  deriving DecidableEq, Repr

/-- How far the writing of a batch has come. -/
inductive Phase where
  /-- Cut from the queue; `io_mutex_` is not held yet. -/
  | taken
  /-- In the critical section, before `EnsureHeaderLocked`. -/
  | header
  /-- The header is there and the frames are finalised. -/
  | frames (bytes : Bytes)
  | flushed
  | synced
  /-- The exception has left the critical section and `failure_` is not set yet. -/
  | failing (e : WalError)
  | completing (error : Option WalError)
  deriving DecidableEq, Repr

def Phase.holdsIo : Phase → Bool
  | .header | .frames _ | .flushed | .synced => true
  | _ => false

/-- The batch being written: the writer's, or the single request of a caller that writes
for itself. -/
structure Job where
  batch : List Request
  phase : Phase
  deriving DecidableEq, Repr

/-- A `WriteAheadLog` with the threads using it. -/
structure WalThreads where
  wal : WriteAheadLog
  batchHistogram : List ℕ
  /-- Length of the file at its last sync, or when it was opened. -/
  syncedLength : ℕ
  /-- The bytes before a truncation that is not synced; `io_mutex_` is held meanwhile. -/
  truncating : Option Bytes := none
  /-- Callers between `PrepareFrame` and the lock. -/
  prepared : List Request := []
  queue : List Request := []
  job : Option Job := none
  stopping : Bool := false
  exited : Bool := false
  nextId : ℕ := 0
  /-- The outcomes of the appends that have one, oldest first. -/
  results : List (ℕ × Option WalError) := []
  /-- Every request that was accepted, in the order of acceptance. -/
  enqueued : List Request := []
  /-- Every request whose frame was flushed to the file, in file order. -/
  history : List Request := []
  deriving DecidableEq, Repr

inductive WalLabel where
  | prepare (op : WalRecord)
  | submit (id : ℕ)
  | cut
  | lockIo
  | writeHeader
  | writeFrames
  | sync
  | finish
  | complete
  | next
  | fail (n : ℕ) (e : WalError)
  | drain
  | stop
  | exit
  | clear
  | clearSync
  /-- `ReplayFromAndTruncate` takes no lock between its two parts, so to the other threads it is
  such a truncation, or nothing. -/
  | truncateTo (offset : ℕ)
  | resetStats
  deriving DecidableEq, Repr

/-- The batch `WriterLoop` takes from the queue, and what it leaves there. -/
def cutBatch (maxBatch : ℕ) : List Request → List Request → ℕ → List Request × List Request
  | [], batch, _ => (batch, [])
  | request :: queue, batch, batchBytes =>
    if batch.length < maxBatch ∧
        ¬(batch ≠ [] ∧ batchBytes+request.frame.length > kMaxBatchBytes) then
      cutBatch maxBatch queue (batch ++ [request]) (batchBytes+request.frame.length)
    else (batch, request :: queue)

namespace WalThreads

def start (wal : WriteAheadLog) : WalThreads where
  wal := wal
  batchHistogram := List.replicate (wal.maxBatch+1) 0
  syncedLength := wal.file.length

variable (host : ByteOrder) (s : WalThreads)

/-- `io_mutex_` can be taken. -/
def ioFree : Bool :=
  s.truncating.isNone && (match s.job with | some job => !job.phase.holdsIo | none => true)

/-- The largest file the system can hold has offsets that fit `std::streamoff`. -/
def fits (bytes : Bytes) : Prop := s.wal.file.length+bytes.length ≤ kMaxStreamoff

instance (bytes : Bytes) : Decidable (s.fits bytes) := inferInstanceAs (Decidable (_ ≤ _))

/-- An exception out of the critical section. A caller that writes for itself sets
`failure_` before it leaves; the writer does so later, under `queue_mutex_`. -/
def failJob (batch : List Request) (e : WalError) : WalThreads :=
  if s.wal.policy = .groupCommit then { s with job := some ⟨batch, .failing e⟩ }
  else { s with
    wal := s.wal.failWith e
    job := none
    results := s.results ++ batch.map (fun r => (r.id, some e)) }

/-- The end of a successful critical section. -/
def finishJob (batch : List Request) : WalThreads :=
  if s.wal.policy = .groupCommit then { s with job := some ⟨batch, .completing none⟩ }
  else { s with job := none, results := s.results ++ batch.map (fun r => (r.id, none)) }

/-- The request enters the queue, or its caller the critical section. -/
def accept (request : Request) : WalThreads :=
  if s.wal.policy = .groupCommit then { s with
    queue := s.queue ++ [request]
    enqueued := s.enqueued ++ [request] }
  else { s with job := some ⟨[request], .header⟩, enqueued := s.enqueued ++ [request] }

def step : WalLabel → Option WalThreads
  | .prepare op => match s.wal.prepare host op with
    | .error e => some { s with nextId := s.nextId+1, results := s.results ++ [(s.nextId, some e)] }
    | .ok frame => some { s with
        nextId := s.nextId+1
        prepared := s.prepared ++ [⟨s.nextId, op, frame⟩] }
  | .submit id => match s.prepared.find? (fun r => r.id == id) with
    | none => none
    | some request =>
      let s' := { s with prepared := s.prepared.erase request }
      -- without a writer thread, a job is a caller inside the critical section
      if s.wal.policy ≠ .groupCommit ∧ ¬(s.ioFree = true ∧ s.job = none) then none
      else match s.wal.appendCheck with
        | .error e => some { s' with results := s.results ++ [(request.id, some e)] }
        | .ok () => if s.exited then none else some (s'.accept request)
  | .cut =>
    if s.wal.policy = .groupCommit ∧ s.job = none ∧ s.exited = false ∧ s.queue ≠ [] then
      let (batch,queue) := cutBatch s.wal.maxBatch s.queue [] 0
      some { s with job := some ⟨batch, .taken⟩, queue := queue }
    else none
  | .lockIo => match s.job with
    | some ⟨batch, .taken⟩ =>
      if s.ioFree then some { s with job := some ⟨batch, .header⟩ } else none
    | _ => none
  | .writeHeader => match s.job with
    | some ⟨batch, .header⟩ =>
      if (s.wal.headerBytes = [] ∨ s.wal.outputOpen) ∧ s.fits s.wal.headerBytes then
        match s.wal.ensureHeaderLocked.finalizeFrames (batch.map Request.frame) with
        | .ok (bytes,wal) => some { s with wal := wal, job := some ⟨batch, .frames bytes⟩ }
        -- the frames before the one that failed have used up the sequence numbers
        | .error e => some (failJob { s with
            wal := { s.wal.ensureHeaderLocked with nextSequence := kMaxUint64 } } batch e)
      else none
    | _ => none
  | .writeFrames => match s.job with
    | some ⟨batch, .frames bytes⟩ =>
      if s.wal.outputOpen ∧ s.fits bytes then some { s with
        wal := { s.wal with file := s.wal.file ++ bytes }
        job := some ⟨batch, .flushed⟩
        history := s.history ++ batch }
      else none
    | _ => none
  | .sync => match s.job with
    | some ⟨batch, .flushed⟩ =>
      if s.wal.policy ≠ .buffered then some { s with
        syncedLength := s.wal.file.length
        job := some ⟨batch, .synced⟩ }
      else none
    | _ => none
  | .finish => match s.job with
    | some ⟨batch, .flushed⟩ => if s.wal.policy = .buffered then some (s.finishJob batch) else none
    | some ⟨batch, .synced⟩ => some (finishJob { s with
        batchHistogram := s.batchHistogram.modify batch.length (·+1) } batch)
    | _ => none
  | .complete => match s.job with
    | some ⟨request :: batch, .completing error⟩ => some { s with
        job := some ⟨batch, .completing error⟩
        results := s.results ++ [(request.id, error)] }
    | _ => none
  | .next => match s.job with
    | some ⟨[], .completing error⟩ =>
      some { s with job := none, exited := s.exited || error.isSome }
    | _ => none
  | .fail n e => match s.job with
    | some ⟨batch, .header⟩ => some (failJob { s with wal := { s.wal with
        file := s.wal.file ++ (if s.wal.outputOpen then s.wal.headerBytes.take n else []) } }
        batch e)
    | some ⟨batch, .frames bytes⟩ => some (failJob { s with wal := { s.wal with
        file := s.wal.file ++ (if s.wal.outputOpen then bytes.take n else []) } } batch e)
    | some ⟨batch, .flushed⟩ => some (s.failJob batch e)
    | some ⟨batch, .synced⟩ => some (s.failJob batch e)
    | _ => none
  | .drain => match s.job with
    | some ⟨batch, .failing e⟩ => some { s with
        wal := s.wal.failWith e
        queue := []
        job := some ⟨batch ++ s.queue, .completing (some e)⟩ }
    | _ => none
  | .stop => some { s with stopping := true }
  | .exit =>
    if s.wal.policy = .groupCommit ∧ s.job = none ∧ s.queue = [] ∧ s.stopping then
      some { s with exited := true }
    else none
  | .clear =>
    if s.ioFree ∧ s.wal.generation ≠ kMaxUint64 then some { s with
      wal := s.wal.cleared
      syncedLength := 0
      truncating := if s.wal.policy = .buffered then none else some s.wal.file }
    else none
  | .clearSync => if s.truncating.isSome then some { s with truncating := none } else none
  | .truncateTo offset =>
    if s.ioFree then
      let wal := (s.wal.truncateTo host offset).2
      some { s with wal := wal, syncedLength := min s.syncedLength wal.file.length }
    else none
  | .resetStats => some { s with batchHistogram := List.replicate (s.wal.maxBatch+1) 0 }

/-- All requests without an outcome. -/
def outstanding : List Request :=
  s.prepared ++ (s.queue ++ (match s.job with | some job => job.batch | none => []))

/-- Every append made so far, each in the place where it stands. -/
def ids : List ℕ := s.results.map Prod.fst ++ s.outstanding.map Request.id

/-- What a step can do, case by case. -/
inductive Steps : WalLabel → WalThreads → Prop where
  | prepareError (op : WalRecord) (e : WalError) (hprep : s.wal.prepare host op = .error e) :
      Steps (.prepare op) { s with
        nextId := s.nextId+1
        results := s.results ++ [(s.nextId, some e)] }
  | prepare (op : WalRecord) (frame : Bytes) (hprep : s.wal.prepare host op = .ok frame) :
      Steps (.prepare op) { s with
        nextId := s.nextId+1
        prepared := s.prepared ++ [⟨s.nextId, op, frame⟩] }
  | refuse (id : ℕ) (r : Request) (e : WalError) (hr : r ∈ s.prepared)
      (hadm : s.wal.appendCheck = .error e) :
      Steps (.submit id) { s with
        prepared := s.prepared.erase r
        results := s.results ++ [(r.id, some e)] }
  | enqueue (id : ℕ) (r : Request) (hr : r ∈ s.prepared) (hpol : s.wal.policy = .groupCommit)
      (hadm : s.wal.appendCheck = .ok ()) (hexit : s.exited = false) :
      Steps (.submit id) { s with
        prepared := s.prepared.erase r
        queue := s.queue ++ [r]
        enqueued := s.enqueued ++ [r] }
  | enter (id : ℕ) (r : Request) (hr : r ∈ s.prepared) (hpol : s.wal.policy ≠ .groupCommit)
      (hio : s.ioFree = true) (hjob : s.job = none) (hadm : s.wal.appendCheck = .ok ())
      (hexit : s.exited = false) :
      Steps (.submit id) { s with
        prepared := s.prepared.erase r
        job := some ⟨[r], .header⟩
        enqueued := s.enqueued ++ [r] }
  | cut (hpol : s.wal.policy = .groupCommit) (hjob : s.job = none) (hexit : s.exited = false)
      (hq : s.queue ≠ []) :
      Steps .cut { s with
        job := some ⟨(cutBatch s.wal.maxBatch s.queue [] 0).1, .taken⟩
        queue := (cutBatch s.wal.maxBatch s.queue [] 0).2 }
  | lockIo (batch : List Request) (hjob : s.job = some ⟨batch, .taken⟩) (hio : s.ioFree = true) :
      Steps .lockIo { s with job := some ⟨batch, .header⟩ }
  | writeHeader (batch : List Request) (bytes : Bytes) (wal : WriteAheadLog)
      (hjob : s.job = some ⟨batch, .header⟩) (hfits : s.fits s.wal.headerBytes)
      (hfin : s.wal.ensureHeaderLocked.finalizeFrames (batch.map Request.frame) = .ok (bytes,wal)) :
      Steps .writeHeader { s with wal := wal, job := some ⟨batch, .frames bytes⟩ }
  | exhausted (batch : List Request) (e : WalError) (hjob : s.job = some ⟨batch, .header⟩)
      (hfin : s.wal.ensureHeaderLocked.finalizeFrames (batch.map Request.frame) = .error e) :
      Steps .writeHeader (failJob { s with
        wal := { s.wal.ensureHeaderLocked with nextSequence := kMaxUint64 } } batch e)
  | writeFrames (batch : List Request) (bytes : Bytes) (hjob : s.job = some ⟨batch, .frames bytes⟩)
      (hfits : s.fits bytes) :
      Steps .writeFrames { s with
        wal := { s.wal with file := s.wal.file ++ bytes }
        job := some ⟨batch, .flushed⟩
        history := s.history ++ batch }
  | sync (batch : List Request) (hjob : s.job = some ⟨batch, .flushed⟩)
      (hpol : s.wal.policy ≠ .buffered) :
      Steps .sync { s with syncedLength := s.wal.file.length, job := some ⟨batch, .synced⟩ }
  | finishBuffered (batch : List Request) (hjob : s.job = some ⟨batch, .flushed⟩)
      (hpol : s.wal.policy = .buffered) : Steps .finish (s.finishJob batch)
  | finish (batch : List Request) (hjob : s.job = some ⟨batch, .synced⟩) :
      Steps .finish (finishJob { s with
        batchHistogram := s.batchHistogram.modify batch.length (·+1) } batch)
  | complete (r : Request) (batch : List Request) (error : Option WalError)
      (hjob : s.job = some ⟨r :: batch, .completing error⟩) :
      Steps .complete { s with
        job := some ⟨batch, .completing error⟩
        results := s.results ++ [(r.id, error)] }
  | next (error : Option WalError) (hjob : s.job = some ⟨[], .completing error⟩) :
      Steps .next { s with job := none, exited := s.exited || error.isSome }
  | failWrite (n : ℕ) (e : WalError) (batch : List Request) (phase : Phase) (torn : Bytes)
      (hjob : s.job = some ⟨batch, phase⟩) (hio : phase.holdsIo = true) :
      Steps (.fail n e)
        (failJob { s with wal := { s.wal with file := s.wal.file ++ torn } } batch e)
  | drain (batch : List Request) (e : WalError) (hjob : s.job = some ⟨batch, .failing e⟩) :
      Steps .drain { s with
        wal := s.wal.failWith e
        queue := []
        job := some ⟨batch ++ s.queue, .completing (some e)⟩ }
  | stop : Steps .stop { s with stopping := true }
  | exit (hpol : s.wal.policy = .groupCommit) (hjob : s.job = none) (hq : s.queue = [])
      (hstop : s.stopping = true) : Steps .exit { s with exited := true }
  | clear (hio : s.ioFree = true) (hgen : s.wal.generation ≠ kMaxUint64) :
      Steps .clear { s with
        wal := s.wal.cleared
        syncedLength := 0
        truncating := if s.wal.policy = .buffered then none else some s.wal.file }
  | clearSync (htrunc : s.truncating.isSome = true) : Steps .clearSync { s with truncating := none }
  | truncateTo (offset : ℕ) (hio : s.ioFree = true) :
      Steps (.truncateTo offset) { s with
        wal := (s.wal.truncateTo host offset).2
        syncedLength := min s.syncedLength (s.wal.truncateTo host offset).2.file.length }
  | resetStats :
      Steps .resetStats { s with batchHistogram := List.replicate (s.wal.maxBatch+1) 0 }

variable {host s}

theorem steps_of_step {t : WalThreads} {l : WalLabel} (h : s.step host l = some t) :
    Steps host s l t := by
  cases l with
  | prepare op =>
    simp only [step] at h
    split at h
    · obtain rfl := Option.some.inj h
      exact .prepareError op _ ‹_›
    · obtain rfl := Option.some.inj h
      exact .prepare op _ ‹_›
  | submit id =>
    simp only [step] at h
    split at h
    · cases h
    rename_i r hfind
    have hr := List.mem_of_find?_eq_some hfind
    split at h
    · cases h
    rename_i hblock
    split at h
    · obtain rfl := Option.some.inj h
      exact .refuse id r _ hr ‹_›
    · rename_i hadm
      split at h
      · cases h
      rename_i hexit
      rw [Bool.not_eq_true] at hexit
      obtain rfl := Option.some.inj h
      by_cases hpol : s.wal.policy = .groupCommit
      · rw [accept, if_pos hpol]
        exact .enqueue id r hr hpol hadm hexit
      · rw [accept, if_neg hpol]
        have hfree : s.ioFree = true ∧ s.job = none := by
          by_contra hn
          exact hblock ⟨hpol,hn⟩
        exact .enter id r hr hpol hfree.1 hfree.2 hadm hexit
  | cut =>
    simp only [step] at h
    split_ifs at h with hc
    obtain rfl := Option.some.inj h
    exact .cut hc.1 hc.2.1 hc.2.2.1 hc.2.2.2
  | lockIo =>
    simp only [step] at h
    split at h
    · split_ifs at h with hio
      obtain rfl := Option.some.inj h
      exact .lockIo _ ‹_› hio
    · cases h
  | writeHeader =>
    simp only [step] at h
    split at h
    · split_ifs at h with hc
      split at h
      · obtain rfl := Option.some.inj h
        exact .writeHeader _ _ _ ‹_› hc.2 ‹_›
      · obtain rfl := Option.some.inj h
        exact .exhausted _ _ ‹_› ‹_›
    · cases h
  | writeFrames =>
    simp only [step] at h
    split at h
    · split_ifs at h with hc
      obtain rfl := Option.some.inj h
      exact .writeFrames _ _ ‹_› hc.2
    · cases h
  | sync =>
    simp only [step] at h
    split at h
    · split_ifs at h with hc
      obtain rfl := Option.some.inj h
      exact .sync _ ‹_› hc
    · cases h
  | finish =>
    simp only [step] at h
    split at h
    · split_ifs at h with hc
      obtain rfl := Option.some.inj h
      exact .finishBuffered _ ‹_› hc
    · obtain rfl := Option.some.inj h
      exact .finish _ ‹_›
    · cases h
  | complete =>
    simp only [step] at h
    split at h
    · obtain rfl := Option.some.inj h
      exact .complete _ _ _ ‹_›
    · cases h
  | next =>
    simp only [step] at h
    split at h
    · obtain rfl := Option.some.inj h
      exact .next _ ‹_›
    · cases h
  | fail n e =>
    simp only [step] at h
    split at h
    · obtain rfl := Option.some.inj h
      exact .failWrite n e _ _ _ ‹_› rfl
    · obtain rfl := Option.some.inj h
      exact .failWrite n e _ _ _ ‹_› rfl
    · obtain rfl := Option.some.inj h
      simpa using Steps.failWrite n e _ _ [] ‹_› rfl
    · obtain rfl := Option.some.inj h
      simpa using Steps.failWrite n e _ _ [] ‹_› rfl
    · cases h
  | drain =>
    simp only [step] at h
    split at h
    · obtain rfl := Option.some.inj h
      exact .drain _ _ ‹_›
    · cases h
  | stop =>
    obtain rfl := Option.some.inj h
    exact .stop
  | exit =>
    simp only [step] at h
    split_ifs at h with hc
    obtain rfl := Option.some.inj h
    exact .exit hc.1 hc.2.1 hc.2.2.1 hc.2.2.2
  | clear =>
    simp only [step] at h
    split at h
    · rename_i hc
      obtain rfl := Option.some.inj h
      exact .clear hc.1 hc.2
    · cases h
  | clearSync =>
    simp only [step] at h
    split_ifs at h with hc
    obtain rfl := Option.some.inj h
    exact .clearSync hc
  | truncateTo offset =>
    simp only [step] at h
    split_ifs at h with hc
    obtain rfl := Option.some.inj h
    exact .truncateTo offset hc
  | resetStats =>
    obtain rfl := Option.some.inj h
    exact .resetStats

/-! ### Every append has one place -/

theorem count_map_erase {l : List Request} {r : Request} (h : r ∈ l) (a : ℕ) :
    (l.map Request.id).count a = ((l.erase r).map Request.id).count a+[r.id].count a := by
  rw [((List.perm_cons_erase h).map Request.id).count_eq, List.map_cons, ← List.singleton_append,
    List.count_append]
  omega

theorem cutBatch_append (maxBatch : ℕ) (queue batch : List Request) (n : ℕ) :
    (cutBatch maxBatch queue batch n).1 ++ (cutBatch maxBatch queue batch n).2 =
      batch ++ queue := by
  induction queue generalizing batch n with
  | nil => simp [cutBatch]
  | cons r queue ih =>
    rw [cutBatch]
    split
    · rw [ih]
      simp
    · rfl

@[simp] theorem map_fst_results (batch : List Request) (e : Option WalError) :
    (batch.map (fun r => (r.id, e))).map Prod.fst = batch.map Request.id := by
  rw [List.map_map]
  rfl

/-- Ending a job gives each of its requests an outcome, or leaves them where they are. -/
theorem failJob_ids {batch : List Request} {phase : Phase} (hjob : s.job = some ⟨batch, phase⟩)
    (wal : WriteAheadLog) (e : WalError) :
    (failJob { s with wal := wal } batch e).ids.Perm s.ids := by
  rw [List.perm_iff_count]
  intro a
  unfold failJob
  split
  · simp [ids, outstanding, hjob]
  · simp only [ids, outstanding, hjob, List.map_append, map_fst_results, List.count_append,
      List.map_nil, List.count_nil]
    omega

theorem finishJob_ids {batch : List Request} {phase : Phase} (hjob : s.job = some ⟨batch, phase⟩)
    (hist : List ℕ) : (finishJob { s with batchHistogram := hist } batch).ids.Perm s.ids := by
  rw [List.perm_iff_count]
  intro a
  unfold finishJob
  split
  · simp [ids, outstanding, hjob]
  · simp only [ids, outstanding, hjob, List.map_append, map_fst_results, List.count_append,
      List.map_nil, List.count_nil]
    omega

@[simp] theorem failJob_nextId (batch : List Request) (e : WalError) :
    (s.failJob batch e).nextId = s.nextId := by
  unfold failJob
  split <;> rfl

@[simp] theorem finishJob_nextId (batch : List Request) :
    (s.finishJob batch).nextId = s.nextId := by
  unfold finishJob
  split <;> rfl

@[simp] theorem failJob_truncating (batch : List Request) (e : WalError) :
    (s.failJob batch e).truncating = s.truncating := by
  unfold failJob
  split <;> rfl

@[simp] theorem finishJob_truncating (batch : List Request) :
    (s.finishJob batch).truncating = s.truncating := by
  unfold finishJob
  split <;> rfl

/-- No step loses, invents or repeats an append. -/
theorem step_ids {t : WalThreads} {l : WalLabel} (h : s.ids.Perm (List.range s.nextId))
    (hstep : s.step host l = some t) : t.ids.Perm (List.range t.nextId) := by
  -- every case but those that end a job is a count of the places of one append
  have hcount := fun a => h.count_eq a
  simp only [ids, outstanding, List.map_append, List.count_append] at hcount
  cases steps_of_step hstep with
  | exhausted batch e hjob => exact (failJob_ids hjob _ e).trans (by simpa using h)
  | failWrite n e batch phase torn hjob => exact (failJob_ids hjob _ e).trans (by simpa using h)
  | finishBuffered batch hjob => exact (finishJob_ids hjob _).trans (by simpa using h)
  | finish batch hjob => exact (finishJob_ids hjob _).trans (by simpa using h)
  | prepareError | prepare =>
    refine List.perm_iff_count.mpr fun a => ?_
    have ha := hcount a
    simp only [ids, outstanding, List.range_succ, List.map_append, List.count_append, List.map_cons,
      List.map_nil]
    omega
  | refuse id r e hr | enqueue id r hr =>
    refine List.perm_iff_count.mpr fun a => ?_
    have ha := hcount a
    have := count_map_erase hr a
    simp only [ids, outstanding, List.map_append, List.count_append, List.map_cons, List.map_nil]
    omega
  | enter id r hr hpol hio hjob =>
    refine List.perm_iff_count.mpr fun a => ?_
    have ha := hcount a
    have := count_map_erase hr a
    simp only [hjob, List.map_nil, List.count_nil] at ha
    simp only [ids, outstanding, List.map_append, List.count_append, List.map_cons, List.map_nil]
    omega
  | cut hpol hjob =>
    refine List.perm_iff_count.mpr fun a => ?_
    have ha := hcount a
    have :=
      congrArg (fun l => (l.map Request.id).count a) (cutBatch_append s.wal.maxBatch s.queue [] 0)
    simp only [List.map_append, List.count_append, List.nil_append] at this
    simp only [hjob, List.map_nil, List.count_nil] at ha
    simp only [ids, outstanding, List.map_append, List.count_append]
    omega
  | lockIo batch hjob | writeFrames batch _ hjob | sync batch hjob | writeHeader batch _ _ hjob =>
    simpa [ids, outstanding, hjob] using h
  | complete r batch error hjob =>
    refine List.perm_iff_count.mpr fun a => ?_
    have ha := hcount a
    rw [hjob] at ha
    dsimp only at ha
    rw [List.map_cons, ← List.singleton_append, List.count_append] at ha
    simp only [ids, outstanding, List.map_append, List.count_append, List.map_cons, List.map_nil]
    omega
  | next error hjob => simpa [ids, outstanding, hjob] using h
  | drain batch e hjob =>
    refine List.perm_iff_count.mpr fun a => ?_
    have ha := hcount a
    rw [hjob] at ha
    dsimp only at ha
    simp only [ids, outstanding, List.map_append, List.count_append, List.map_nil, List.count_nil]
    omega
  | stop | exit | clear | clearSync | truncateTo | resetStats => exact h

end WalThreads

end ConcurrentKV
